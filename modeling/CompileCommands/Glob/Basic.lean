/-!
# Globs

A glob is a pattern for a name or a path. It is matched against the
bytes of a text, so `?` and a class stand for one byte each. Whether `?`
and `*` reach over a separator is up to whoever matches.

A glob is matched by its ends: the rests of a text that can remain after
a beginning of it has been matched. A text matches when nothing can
remain.
-/

namespace CompileCommands

/-- A part of a glob that is not made of other parts. -/
inductive GlobAtom where
  /-- A character. -/
  | literal (c : Char)
  /-- `?`: one byte. -/
  | any
  /-- `*`: any number of bytes. -/
  | star
  /-- A leading `**`: any number of directories. -/
  | leadingDirectories
  /-- A final `**`: everything below. -/
  | everythingBelow
  /-- A `**` between separators: a separator, or one at either end of any
  directories. -/
  | innerDirectories
  /-- `[…]`: one byte of the class, or outside it. -/
  | oneOf (negated : Bool) (ranges : List (Char × Char))
deriving DecidableEq, Repr

/-- A pattern for a name or a path. -/
inductive Glob where
  | nothing
  | atom (a : GlobAtom)
  | both (first second : Glob)
  | either (left right : Glob)
deriving DecidableEq, Repr

namespace GlobAtom

/-- The byte of a separator. -/
def separator : UInt8 := 0x2F

/-- The byte ranges of a class. Of a character of several bytes, every
byte counts on its own; a range runs from the last byte of its first
character to the first byte of its last one. -/
def byteRanges (r : Char × Char) : List (UInt8 × UInt8) :=
  let alone (bs : List UInt8) := bs.map fun b => (b, b)
  let low := String.utf8EncodeChar r.1
  let high := String.utf8EncodeChar r.2
  if r.1 = r.2 then alone low
  else
    match low.getLast?, high.head? with
    | some a, some b => alone low.dropLast ++ [(a, b)] ++ alone high.tail
    | _, _ => []

/-- Whether a byte belongs to a class. -/
def holds (ranges : List (Char × Char)) (b : UInt8) : Bool :=
  (ranges.flatMap byteRanges).any fun r => r.1 ≤ b && b ≤ r.2

/-- The text and every rest of it that follows a byte. -/
def rests : List UInt8 → List (List UInt8)
  | [] => [[]]
  | b :: bs => (b :: bs) :: rests bs

/-- The rests of a text that follow a separator in it. -/
def afterSeparators : List UInt8 → List (List UInt8)
  | [] => []
  | b :: bs => if b = separator then bs :: afterSeparators bs else afterSeparators bs

/-- The rests of a text that no separator stands before. -/
def restsInName : List UInt8 → List (List UInt8)
  | [] => [[]]
  | b :: bs => (b :: bs) :: (if b = separator then [] else restsInName bs)

/-- What can remain of a text after the atom. With `apart`, `?` and `*`
stop at a separator. -/
def ends (apart : Bool) : GlobAtom → List UInt8 → List (List UInt8)
  | literal c, bs =>
    let w := String.utf8EncodeChar c
    if w.isPrefixOf bs then [bs.drop w.length] else []
  | any, [] => []
  | any, b :: bs => if apart && b == separator then [] else [bs]
  | star, bs => if apart then restsInName bs else rests bs
  | leadingDirectories, bs => bs :: afterSeparators bs
  | everythingBelow, b :: bs => if b = separator then rests bs else []
  | everythingBelow, [] => []
  | innerDirectories, b :: bs => if b = separator then bs :: afterSeparators bs else []
  | innerDirectories, [] => []
  | oneOf _ _, [] => []
  | oneOf negated ranges, b :: bs => if holds ranges b != negated then [bs] else []

end GlobAtom

namespace Glob

/-- Whether the glob has no part that stands for anything. -/
def isVoid : Glob → Bool
  | nothing => true
  | atom _ => false
  | both f g => f.isVoid && g.isVoid
  | either f g => f.isVoid && g.isVoid

/-- The parts one after the other. -/
def sequence (parts : List Glob) : Glob :=
  parts.foldl (fun f g => if f = nothing then g else both f g) nothing

/-- A group: any of the branches. A branch that stands for nothing is
left out. -/
def choice (branches : List Glob) : Glob :=
  match branches.filter fun g => !g.isVoid with
  | [] => nothing
  | g :: gs => gs.foldl either (both nothing g)

/-- What can remain of a text after the glob, each rest once. -/
def ends (apart : Bool) : Glob → List UInt8 → List (List UInt8)
  | nothing, bs => [bs]
  | atom a, bs => a.ends apart bs
  | both f g, bs =>
    ((f.ends apart bs).flatMap (g.ends apart)).eraseDupsBy fun x y => x.length == y.length
  | either f g, bs => f.ends apart bs ++ g.ends apart bs

/-- Whether the glob matches the whole text. -/
def isMatch (apart : Bool) (g : Glob) (text : String) : Bool :=
  (g.ends apart text.toUTF8.toList).any List.isEmpty

end Glob

end CompileCommands
