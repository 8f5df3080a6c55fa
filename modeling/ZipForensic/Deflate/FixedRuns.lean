import ZipForensic.Deflate.StoredStream
import ZipForensic.Stream.Transducer

/-!
# Runs of one byte in a fixed Huffman block (Deflate64)

A `Transducer` for streams of one final block with the fixed Huffman codes, made of
literals and of matches with length code 285 — in Deflate64, 3 plus 16 extra bits — at
distance 1. A few bytes of such a stream stand for a run of any length. Everything else
counts as bad input.

`runsOf` decodes to runs, that is to pairs of a count and a byte, and so never writes out
what it decodes; `feed_eq` expands them.
-/

namespace ZipForensic

/-- A decoder inside a stream. -/
structure FixedRuns where
  /-- The block header has been read. -/
  started : Bool
  /-- The end-of-block code has been read. -/
  ended : Bool
  /-- The last byte of the output. -/
  last : Option UInt8
  /-- Bits not decoded yet. -/
  bits : List Bool
deriving DecidableEq

namespace FixedRuns

/-- The number a Huffman code denotes, most significant bit first. -/
def codeNat (bits : List Bool) : Nat := bits.foldl (fun n b => 2 * n + b.toNat) 0

/-- The next literal/length symbol of the fixed code, and the bits behind it. -/
def fixedCode (bits : List Bool) : Option (Nat × List Bool) :=
  let code := fun n => codeNat (bits.take n)
  if bits.length < 7 then none
  else if code 7 < 24 then some (256 + code 7, bits.drop 7)
  else if bits.length < 8 then none
  else if code 8 < 192 then some (code 8 - 48, bits.drop 8)
  else if code 8 < 200 then some (280 + (code 8 - 192), bits.drop 8)
  else if bits.length < 9 then none
  else some (144 + (code 9 - 400), bits.drop 9)

/-- Decode the complete symbols at the front of `bits`, as runs. Every symbol has bits,
which bounds the rounds. -/
def decodeSymbols : Nat → Option UInt8 → List Bool → Option (FixedRuns × List (Nat × UInt8))
  | 0, last, bits => some (⟨true, false, last, bits⟩, [])
  | fuel + 1, last, bits =>
    match fixedCode bits with
    | none => some (⟨true, false, last, bits⟩, [])
    | some (symbol, rest) =>
      if symbol < 256 then
        let b := UInt8.ofNat symbol
        (decodeSymbols fuel (some b) rest).map fun r => (r.1, (1, b) :: r.2)
      else if symbol = 256 then some (⟨true, true, last, rest⟩, [])
      else if symbol = 285 then
        -- 16 extra bits and 5 bits of the distance code
        if rest.length < 21 then some (⟨true, false, last, bits⟩, [])
        else if codeNat ((rest.drop 16).take 5) ≠ 0 then none
        else
          match last with
          | none => none
          | some b =>
            (decodeSymbols fuel last (rest.drop 21)).map fun r =>
              (r.1, (3 + bitsToNat (rest.take 16), b) :: r.2)
      else none

/-- One byte of the stream, as runs. -/
def stepRuns (s : FixedRuns) (b : UInt8) : Option (FixedRuns × List (Nat × UInt8)) :=
  let bits := s.bits ++ natBits 8 b.toNat
  if s.started then decodeSymbols bits.length s.last bits
  -- BFINAL = 1, BTYPE = 01
  else if bits.take 3 = [true, true, false] then decodeSymbols bits.length s.last (bits.drop 3)
  else none

/-- The bytes of a list of runs. -/
def expand (runs : List (Nat × UInt8)) : Bytes := runs.flatMap fun r => List.replicate r.1 r.2

theorem expand_append (a b : List (Nat × UInt8)) : expand (a ++ b) = expand a ++ expand b :=
  List.flatMap_append

@[simp] theorem expand_nil : expand [] = [] := rfl

/-- Adjacent runs of one byte are one run. -/
theorem expand_pair (m n : Nat) (b : UInt8) : expand [(m, b), (n, b)] = List.replicate (m + n) b := by
  show List.replicate m b ++ (List.replicate n b ++ []) = _
  rw [List.append_nil, List.replicate_append_replicate]

theorem expand_singleton (n : Nat) (b : UInt8) : expand [(n, b)] = List.replicate n b :=
  List.append_nil _

def new : FixedRuns := ⟨false, false, none, []⟩

def transducer : Transducer where
  State := FixedRuns
  init := new
  step s b := (stepRuns s b).map fun r => (r.1, expand r.2)
  done := ended

theorem step_eq {s s' : FixedRuns} {b : UInt8} {runs : List (Nat × UInt8)}
    (h : stepRuns s b = some (s', runs)) : transducer.step s b = some (s', expand runs) :=
  congrArg (Option.map fun r : FixedRuns × List (Nat × UInt8) => (r.1, expand r.2)) h

/-- Bytes of a stream that is not at its end, as runs. -/
def runsOf : FixedRuns → Bytes → Option (FixedRuns × List (Nat × UInt8))
  | s, [] => some (s, [])
  | s, b :: bs =>
    if s.ended then none
    else
      (stepRuns s b).bind fun r => (runsOf r.1 bs).map fun r' => (r'.1, r.2 ++ r'.2)

theorem feed_eq {s s' : FixedRuns} {bs : Bytes} {runs : List (Nat × UInt8)}
    (h : runsOf s bs = some (s', runs)) : transducer.feed s bs = some (s', expand runs) := by
  induction bs generalizing s runs with
  | nil =>
    cases h
    rfl
  | cons b bs ih =>
    rw [runsOf] at h
    split_ifs at h with hended
    obtain ⟨⟨s₁, runs₁⟩, hstep, h⟩ := Option.bind_eq_some_iff.1 h
    obtain ⟨⟨s₂, runs₂⟩, hrest, h⟩ := Option.map_eq_some_iff.1 h
    cases h
    rw [Transducer.feed_cons (Bool.eq_false_iff.2 hended) (step_eq hstep), ih hrest,
      expand_append]
    rfl

/-! ## Snapshots -/

def encodeBool (b : Bool) : UInt8 := if b then 1 else 0

def encode (s : FixedRuns) : Bytes :=
  encodeBool s.started :: encodeBool s.ended :: encodeBool s.last.isSome :: s.last.getD 0 ::
    s.bits.map encodeBool

def decode : Bytes → Option FixedRuns
  | started :: ended :: isSome :: last :: bits =>
    some ⟨started == 1, ended == 1, if isSome == 1 then some last else none, bits.map (· == 1)⟩
  | _ => none

@[simp] theorem encodeBool_beq (b : Bool) : (encodeBool b == 1) = b := by
  cases b <;> rfl

theorem decode_encode (s : FixedRuns) : decode (encode s) = some s := by
  obtain ⟨started, ended, last, bits⟩ := s
  have hbits : (bits.map encodeBool).map (· == 1) = bits := by
    simp [Function.comp_def]
  unfold encode decode
  dsimp only
  rw [hbits, encodeBool_beq, encodeBool_beq, encodeBool_beq]
  cases last <;> rfl

def snapshots : Snapshots transducer := ⟨encode, decode, decode_encode⟩

end FixedRuns

end ZipForensic
