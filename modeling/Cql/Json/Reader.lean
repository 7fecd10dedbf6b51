import Cql.Json.Number

/-!
Reading a document from bytes. Strings may hold escapes, which are decoded with the bytes around them
before the whole is taken for UTF-8; arrays and objects may be nested up to a limit.
-/

namespace Cql.Json

def skipBlanks (bytes : Bytes) : Bytes :=
  bytes.dropWhile fun b => b == 32 || b == 10 || b == 9 || b == 13

namespace StringBody

/-- The byte that a letter behind a backslash stands for. -/
def escape? (b : UInt8) : Option UInt8 :=
  if b = 34 || b = 92 || b = 47 then some b
  else if b = 98 then some 8
  else if b = 102 then some 12
  else if b = 110 then some 10
  else if b = 114 then some 13
  else if b = 116 then some 9
  else none

def digit? (b : UInt8) : Option Nat := Hex.digitValue (Char.ofNat b.toNat)

/-- A number of four hexadecimal digits. -/
def codeUnit? (a b c d : UInt8) : Option Nat := do
  let a ← digit? a
  let b ← digit? b
  let c ← digit? c
  let d ← digit? d
  some (((a * 16 + b) * 16 + c) * 16 + d)

def isLeading (unit : Nat) : Bool := 0xD800 ≤ unit && unit ≤ 0xDBFF

def isTrailing (unit : Nat) : Bool := 0xDC00 ≤ unit && unit ≤ 0xDFFF

/-- Puts a character in front of bytes in reverse. -/
def push (n : Nat) (done : Bytes) : Bytes := (Utf8.encodeChar (Char.ofNat n)).reverse ++ done

/-- A string behind its opening quote; `done` holds its bytes so far, the last one first. Bytes that
are no UTF-8 are found at the closing quote. -/
def read (done : Bytes) : Bytes → Except Stop (String × Bytes)
  | [] => stopAt .endInString []
  | 34 :: rest =>
    match Utf8.decode done.reverse with
    | .ok t => .ok (String.ofList t, rest)
    | .error _ => stopAt .invalidCodePoint (34 :: rest)
  | 92 :: [] => stopAt .endInString []
  | 92 :: letter :: rest =>
    match escape? letter with
    | some b => read (b :: done) rest
    | none =>
      if letter ≠ 117 then stopAt .invalidEscape rest
      else
        match rest with
        | a :: b :: c :: d :: rest =>
          match codeUnit? a b c d with
          | none => stopAt .invalidEscape rest
          | some unit =>
            if isTrailing unit then stopAt .loneSurrogate rest
            else if !isLeading unit then read (push unit done) rest
            else
              match rest with
              | [] => stopAt .endInString []
              | x :: next =>
                if x ≠ 92 then stopAt .missingSurrogate next
                else
                  match next with
                  | [] => stopAt .endInString []
                  | y :: next =>
                    if y ≠ 117 then stopAt .missingSurrogate next
                    else
                      match next with
                      | a :: b :: c :: d :: next =>
                        match codeUnit? a b c d with
                        | none => stopAt .invalidEscape next
                        | some second =>
                          if isTrailing second then
                            read (push (0x10000 + (unit - 0xD800) * 1024 + (second - 0xDC00)) done)
                              next
                          else stopAt .loneSurrogate next
                      | _ => stopAt .endInString []
        | _ => stopAt .endInString []
  | b :: rest => if b < 32 then stopAt .controlCharacter rest else read (b :: done) rest

end StringBody

/-- The rest of a word. -/
def word (letters : Bytes) (document : Document) (bytes : Bytes) :
    Except Stop (Document × Bytes) :=
  match letters, bytes with
  | [], rest => .ok (document, rest)
  | _ :: _, [] => stopAt .endInValue []
  | l :: letters, b :: rest =>
    if l = b then word letters document rest else stopAt .expectedWord rest

/-- The elements of an array, the first of which needs no comma before it. Every element takes a byte
at least, so that `room` is enough when it counts the bytes. -/
def elements (value : Bytes → Except Stop (Document × Bytes)) (first : Bool)
    (done : List Document) : Nat → Bytes → Except Stop (Document × Bytes)
  | 0, _ => stopAt .endInList []
  | room + 1, bytes =>
    match skipBlanks bytes with
    | [] => stopOn .endInList []
    | 93 :: rest => .ok (.array done.reverse, rest)
    | b :: rest => do
      let start ←
        if first then .ok (b :: rest)
        else if b = 44 then
          match skipBlanks rest with
          | 93 :: rest => stopAt .trailingComma rest
          | [] => stopOn .endInValue []
          | start => .ok start
        else stopAt .expectedListEnd rest
      let (item, rest) ← value start
      elements value false (item :: done) room rest

/-- The fields of an object; a later one takes the place of an earlier one with the same key. -/
def fields (value : Bytes → Except Stop (Document × Bytes)) (first : Bool)
    (done : List (String × Document)) : Nat → Bytes → Except Stop (Document × Bytes)
  | 0, _ => stopAt .endInObject []
  | room + 1, bytes =>
    match skipBlanks bytes with
    | [] => stopOn .endInObject []
    | 125 :: rest => .ok (.object done, rest)
    | b :: rest => do
      let start ←
        if first then
          if b = 34 then .ok rest else stopAt .keyNotString rest
        else if b = 44 then
          match skipBlanks rest with
          | 34 :: rest => .ok rest
          | 125 :: rest => stopAt .trailingComma rest
          | [] => stopOn .endInValue []
          | _ :: rest => stopAt .keyNotString rest
        else stopAt .expectedObjectEnd rest
      let (key, rest) ← StringBody.read [] start
      match skipBlanks rest with
      | 58 :: rest =>
        let (item, rest) ← value rest
        fields value false (insertField key item done) room rest
      | [] => stopOn .endInObject []
      | _ :: rest => stopAt .expectedColon rest

/-- A value whose elements are read by `inner`, unless they are nested too deep. -/
def valueWith (inner : Option (Bytes → Except Stop (Document × Bytes))) (bytes : Bytes) :
    Except Stop (Document × Bytes) :=
  match skipBlanks bytes with
  | [] => stopOn .endInValue []
  | b :: rest =>
    if b = 110 then word [117, 108, 108] .null rest
    else if b = 116 then word [114, 117, 101] (.boolean true) rest
    else if b = 102 then word [97, 108, 115, 101] (.boolean false) rest
    else if b = 45 then Number.read true rest
    else if (Number.digit? b).isSome then Number.read false (b :: rest)
    else if b = 34 then do
      let (s, rest) ← StringBody.read [] rest
      .ok (.string s, rest)
    else if b = 91 then
      match inner with
      | none => stopAt .tooDeep rest
      | some value => elements value true [] (rest.length + 1) rest
    else if b = 123 then
      match inner with
      | none => stopAt .tooDeep rest
      | some value => fields value true [] (rest.length + 1) rest
    else stopAt .expectedValue rest

/-- A value with at most `levels` arrays and objects inside one another. -/
def value : Nat → Bytes → Except Stop (Document × Bytes)
  | 0 => valueWith none
  | levels + 1 => valueWith (some (value levels))

/-- How deep arrays and objects may be nested. -/
def nestingLimit : Nat := 127

/-- The place of a stop among the lines of the whole input. -/
def locate (bytes : Bytes) (stop : Stop) : Fault :=
  let before := bytes.take (bytes.length - stop.remaining)
  let column := (before.reverse.takeWhile (· != 10)).length
  ⟨stop.flaw, 1 + before.count 10, column⟩

/-- A whole input with blanks around one document. -/
def read (bytes : Bytes) : Except Fault Document :=
  match value nestingLimit bytes with
  | .error stop => .error (locate bytes stop)
  | .ok (document, rest) =>
    match skipBlanks rest with
    | [] => .ok document
    | _ :: rest => .error (locate bytes ⟨.trailingCharacters, rest.length⟩)

end Cql.Json
