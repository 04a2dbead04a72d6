import CompileCommands.Json.Scalar
/-!
# Passing over a JSON value

A value that nobody asks for is passed over without being built. Only
its grammar is checked: its strings may hold any bytes and any escapes,
its numbers may be of any size, and it may be nested to any depth.
-/

namespace CompileCommands

namespace Json

/-- An array or an object that has not been closed yet. -/
inductive Frame where
  | array
  | object
deriving DecidableEq, Repr

/-- The byte that closes a frame. -/
def Frame.closer : Frame → UInt8
  | array => byte ']'
  | object => byte '}'

/-- What has to come next while a value is passed over. -/
inductive Skipping where
  /-- A value. -/
  | value
  /-- The first item of the innermost frame, or its end. -/
  | opened
  /-- A key of the innermost frame. -/
  | key
  /-- What follows a finished value. -/
  | finished

/-- Passes over a word that starts with the given byte. -/
def skipWord? (b : UInt8) (bs : List UInt8) : Option (Except Fault (List UInt8)) :=
  if b = byte 'n' then some (expectWord [byte 'u', byte 'l', byte 'l'] bs)
  else if b = byte 't' then some (expectWord [byte 'r', byte 'u', byte 'e'] bs)
  else if b = byte 'f' then some (expectWord [byte 'a', byte 'l', byte 's', byte 'e'] bs)
  else none

/-- Passes over a value without parts that starts with the byte `b`. -/
def skipScalar (b : UInt8) (bs : List UInt8) : Except Fault (List UInt8) :=
  match skipWord? b bs with
  | some r => r
  | none =>
    if b = byte '"' then skippedString bs
    else if b = byte '-' then (numeral .malformed bs).map Prod.snd
    else if isDigit b then (numeral .malformed (b :: bs)).map Prod.snd
    else .error .malformed

/-- Passes over a key and the colon after it, past the opening quote. -/
def skipKey (bs : List UInt8) : Except Fault (List UInt8) := do
  let rest ← skippedString bs
  match skipGaps rest with
  | [] => .error .truncated
  | b :: rest => if b = byte ':' then .ok rest else .error .malformed

/-- Passes over the rest of a value inside the given frames, innermost
first. Each round but the first after a frame is opened reads at least
one byte, so `2 * bs.length + 2` rounds suffice. -/
def skipFrom : Nat → Skipping → List Frame → List UInt8 → Except Fault (List UInt8)
  | 0, _, _, _ => .error .truncated
  | _ + 1, .finished, [], bs => .ok bs
  | n + 1, .finished, f :: fs, bs =>
    match skipGaps bs with
    | [] => .error .truncated
    | b :: rest =>
      if b = f.closer then skipFrom n .finished fs rest
      else if b = byte ',' then
        skipFrom n (if f = .object then .key else .value) (f :: fs) rest
      else .error .malformed
  | n + 1, .value, fs, bs =>
    match skipGaps bs with
    | [] => .error .truncated
    | b :: rest =>
      if b = byte '[' then skipFrom n .opened (.array :: fs) rest
      else if b = byte '{' then skipFrom n .opened (.object :: fs) rest
      else do skipFrom n .finished fs (← skipScalar b rest)
  | n + 1, .opened, fs, bs =>
    match skipGaps bs, fs with
    | b :: rest, f :: outer =>
      if b = f.closer then skipFrom n .finished outer rest
      else skipFrom n (if f = .object then .key else .value) fs bs
    | _, _ => .error .truncated
  | n + 1, .key, fs, bs =>
    match skipGaps bs with
    | [] => .error .truncated
    | b :: rest =>
      if b = byte '"' then do skipFrom n .value fs (← skipKey rest)
      else .error .malformed

/-- Passes over one value. -/
def skipValue (bs : List UInt8) : Except Fault (List UInt8) :=
  skipFrom (2 * bs.length + 2) .value [] bs

end Json

end CompileCommands
