import ZipForensic.Core.Error

/-!
# Entry names (archive.rs `decode_name`, cp437.rs)

A name is UTF-8 when general-purpose flag bit 11 is set or when it is pure
ASCII, else CP437. UTF-8 is decoded the way `String::from_utf8_lossy` does it:
every maximal ill-formed prefix of a sequence becomes one U+FFFD.
-/

namespace ZipForensic

/-! ## UTF-8 -/

/-- `10xxxxxx`. -/
def isContinuation (b : UInt8) : Bool := 0x80 ≤ b.toNat && b.toNat ≤ 0xBF

/-- Which second bytes may follow the lead byte of a three- or four-byte
sequence (this is what rules out overlong forms and surrogates). -/
def secondOk (lead second : Nat) : Bool :=
  match lead with
  | 0xE0 => 0xA0 ≤ second && second ≤ 0xBF
  | 0xED => 0x80 ≤ second && second ≤ 0x9F
  | 0xF0 => 0x90 ≤ second && second ≤ 0xBF
  | 0xF4 => 0x80 ≤ second && second ≤ 0x8F
  | _ => 0x80 ≤ second && second ≤ 0xBF

/-- The six payload bits of a continuation byte. -/
def tail6 (b : UInt8) : Nat := b.toNat % 64

/-- Decode one sequence: its character, or `none` for an ill-formed one, and
what follows it. An ill-formed sequence ends before the first byte that cannot
continue it. -/
def utf8Next (b₀ : UInt8) (rest : Bytes) : Option Char × Bytes :=
  let lead := b₀.toNat
  if lead < 0x80 then (some (Char.ofNat lead), rest)
  else if 0xC2 ≤ lead ∧ lead ≤ 0xDF then
    match rest with
    | b₁ :: r₁ =>
      if isContinuation b₁ then (some (Char.ofNat (lead % 32 * 64 + tail6 b₁)), r₁)
      else (none, rest)
    | [] => (none, rest)
  else if 0xE0 ≤ lead ∧ lead ≤ 0xEF then
    match rest with
    | b₁ :: r₁ =>
      if secondOk lead b₁.toNat then
        match r₁ with
        | b₂ :: r₂ =>
          if isContinuation b₂ then
            (some (Char.ofNat ((lead % 16 * 64 + tail6 b₁) * 64 + tail6 b₂)), r₂)
          else (none, r₁)
        | [] => (none, r₁)
      else (none, rest)
    | [] => (none, rest)
  else if 0xF0 ≤ lead ∧ lead ≤ 0xF4 then
    match rest with
    | b₁ :: r₁ =>
      if secondOk lead b₁.toNat then
        match r₁ with
        | b₂ :: r₂ =>
          if isContinuation b₂ then
            match r₂ with
            | b₃ :: r₃ =>
              if isContinuation b₃ then
                (some (Char.ofNat
                  (((lead % 8 * 64 + tail6 b₁) * 64 + tail6 b₂) * 64 + tail6 b₃)), r₃)
              else (none, r₂)
            | [] => (none, r₂)
          else (none, r₁)
        | [] => (none, r₁)
      else (none, rest)
    | [] => (none, rest)
  else (none, rest)

/-- The sequences of a byte string, ill-formed ones as `none`; every sequence
takes at least one byte of the fuel. -/
def utf8Sequences : Nat → Bytes → List (Option Char)
  | 0, _ => []
  | _, [] => []
  | fuel + 1, b :: bs =>
    let (c, rest) := utf8Next b bs
    c :: utf8Sequences fuel rest

/-- `String::from_utf8_lossy`. -/
def fromUtf8Lossy (bytes : Bytes) : String :=
  String.ofList ((utf8Sequences bytes.length bytes).map fun c => c.getD (Char.ofNat 0xFFFD))

/-- `String::from_utf8(..).ok()`. -/
def fromUtf8 (bytes : Bytes) : Option String :=
  let cs := utf8Sequences bytes.length bytes
  if cs.all Option.isSome then some (String.ofList (cs.filterMap id)) else none

/-! ## CP437 -/

namespace Cp437

/-- CP437 code points for bytes 0x80..=0xFF (index = byte - 0x80). -/
def high : List Nat :=
  [0x00C7, 0x00FC, 0x00E9, 0x00E2, 0x00E4, 0x00E0, 0x00E5, 0x00E7,
   0x00EA, 0x00EB, 0x00E8, 0x00EF, 0x00EE, 0x00EC, 0x00C4, 0x00C5,
   0x00C9, 0x00E6, 0x00C6, 0x00F4, 0x00F6, 0x00F2, 0x00FB, 0x00F9,
   0x00FF, 0x00D6, 0x00DC, 0x00A2, 0x00A3, 0x00A5, 0x20A7, 0x0192,
   0x00E1, 0x00ED, 0x00F3, 0x00FA, 0x00F1, 0x00D1, 0x00AA, 0x00BA,
   0x00BF, 0x2310, 0x00AC, 0x00BD, 0x00BC, 0x00A1, 0x00AB, 0x00BB,
   0x2591, 0x2592, 0x2593, 0x2502, 0x2524, 0x2561, 0x2562, 0x2556,
   0x2555, 0x2563, 0x2551, 0x2557, 0x255D, 0x255C, 0x255B, 0x2510,
   0x2514, 0x2534, 0x252C, 0x251C, 0x2500, 0x253C, 0x255E, 0x255F,
   0x255A, 0x2554, 0x2569, 0x2566, 0x2560, 0x2550, 0x256C, 0x2567,
   0x2568, 0x2564, 0x2565, 0x2559, 0x2558, 0x2552, 0x2553, 0x256B,
   0x256A, 0x2518, 0x250C, 0x2588, 0x2584, 0x258C, 0x2590, 0x2580,
   0x03B1, 0x00DF, 0x0393, 0x03C0, 0x03A3, 0x03C3, 0x00B5, 0x03C4,
   0x03A6, 0x0398, 0x03A9, 0x03B4, 0x221E, 0x03C6, 0x03B5, 0x2229,
   0x2261, 0x00B1, 0x2265, 0x2264, 0x2320, 0x2321, 0x00F7, 0x2248,
   0x00B0, 0x2219, 0x00B7, 0x221A, 0x207F, 0x00B2, 0x25A0, 0x00A0]

/-- Decode a single CP437 byte to its Unicode character. -/
def decode (b : UInt8) : Char :=
  if b.toNat < 0x80 then Char.ofNat b.toNat else Char.ofNat (high.getD (b.toNat - 0x80) 0)

example : high.length = 128 := rfl

end Cp437

/-- Decode an entry filename: UTF-8 (flag bit 11, or pure ASCII) or CP437. -/
def decodeName (bytes : Bytes) (flags : Nat) : String :=
  if flags &&& 0x0800 ≠ 0 ∨ bytes.all (fun b => decide (b.toNat < 0x80)) = true then
    fromUtf8Lossy bytes
  else
    String.ofList (bytes.map Cp437.decode)

/-! ## Components -/

def isSeparator (c : Char) : Bool := c = '/' ∨ c = '\\'

end ZipForensic
