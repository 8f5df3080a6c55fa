import ZipForensic.Core.Decoder
import ZipForensic.Stream.Simulation

/-!
# Decoders over readers that cannot be told apart (codec.rs)

Set up over two readers related by a simulation, the decoders of an entry are the same
(`Decoder.new_alike`), answer alike (`Decoder.readSim_alike`), and leave the readers below
them related (`Decoder.Alike.input`).
-/

namespace ZipForensic

variable {k : Crates} {σ τ : Type} [Read IoError σ] [Read IoError τ]

/-- Both fail, with the same error, or both give what is related by `Q`. -/
inductive SameOutcome {β γ : Type} (Q : β → γ → Prop) :
    Except (ZipCoreError × σ) β → Except (ZipCoreError × τ) γ → Prop
  | ok {b : β} {c : γ} (h : Q b c) : SameOutcome Q (.ok b) (.ok c)
  | error (e : ZipCoreError) (r : σ) (s : τ) : SameOutcome Q (.error (e, r)) (.error (e, s))

namespace Decoder

/-- The same decoder over readers related by `R`. -/
inductive Alike (R : σ → τ → Prop) : Decoder k σ → Decoder k τ → Prop
  | stored {r : σ} {s : τ} (h : R r s) : Alike R (.stored r) (.stored s)
  | deflate {p : Pipe k.flate2 σ} {q : Pipe k.flate2 τ}
      (h : p.state = q.state ∧ R p.inner q.inner) : Alike R (.deflate p) (.deflate q)
  | deflate64 {p : Pipe k.deflate64 σ} {q : Pipe k.deflate64 τ}
      (h : p.state = q.state ∧ R p.inner q.inner) : Alike R (.deflate64 p) (.deflate64 q)
  | buffered (decoded : Window IoError) {r : σ} {s : τ} (h : R r s) :
      Alike R (.buffered decoded r) (.buffered decoded s)

variable {R : σ → τ → Prop}

omit [Read IoError σ] [Read IoError τ] in
theorem Alike.input {d : Decoder k σ} {d' : Decoder k τ} (h : Alike R d d') :
    R d.input d'.input := by
  cases h with
  | stored h => exact h
  | deflate h => exact h.2
  | deflate64 h => exact h.2
  | buffered decoded h => exact h

variable (hR : ReadSim R)
include hR

theorem readCapped_alike (cap : Nat) {r : σ} {s : τ} (h : R r s) :
    (readCapped cap r).1 = (readCapped cap s).1 ∧ R (readCapped cap r).2 (readCapped cap s).2 := by
  obtain ⟨hend, hnext⟩ := hR.take.readToEnd (r := ⟨r, cap + 1⟩) (s := ⟨s, cap + 1⟩) ⟨h, rfl⟩
  rw [readCapped, readCapped]
  rcases hr : readToEnd (⟨r, cap + 1⟩ : Take σ) with ⟨x, t⟩
  rcases hs : readToEnd (⟨s, cap + 1⟩ : Take τ) with ⟨y, u⟩
  rw [hr, hs] at hend hnext
  dsimp only at hend
  subst hend
  cases x with
  | error e => exact ⟨rfl, hnext.1⟩
  | ok out =>
    dsimp only
    split_ifs
    · exact ⟨rfl, hnext.1⟩
    · exact ⟨rfl, hnext.1⟩

theorem drain_alike {K : Codec IoError} {p : Pipe K σ} {q : Pipe K τ}
    (h : p.state = q.state ∧ R p.inner q.inner) :
    SameOutcome (Alike (k := k) R) (drain p) (drain q) := by
  obtain ⟨hcapped, hnext⟩ := readCapped_alike hR.pipe maxBufferedDecode h
  rw [drain, drain]
  rcases hp : readCapped maxBufferedDecode p with ⟨x, p'⟩
  rcases hq : readCapped maxBufferedDecode q with ⟨y, q'⟩
  rw [hp, hq] at hcapped hnext
  dsimp only at hcapped
  subst hcapped
  cases x with
  | error e => exact .error _ _ _
  | ok decoded => exact .ok (.buffered _ hnext.2)

theorem drainWith_alike (decode : Bytes → Except ZipCoreError Bytes) {r : σ} {s : τ} (h : R r s) :
    SameOutcome (Alike (k := k) R) (drainWith decode r) (drainWith decode s) := by
  obtain ⟨hend, hnext⟩ := hR.readToEnd h
  rw [drainWith, drainWith]
  rcases hr : readToEnd r with ⟨x, r'⟩
  rcases hs : readToEnd s with ⟨y, s'⟩
  rw [hr, hs] at hend hnext
  dsimp only at hend
  subst hend
  cases x with
  | error e => exact .error _ _ _
  | ok raw =>
    dsimp only
    cases decode raw with
    | error e => exact .error _ _ _
    | ok decoded => exact .ok (.buffered _ hnext)

/-- Decoders are set up alike. -/
theorem new_alike (method : CompressionMethod) (expectedSize : Nat) {r : σ} {s : τ} (h : R r s) :
    SameOutcome (Alike (k := k) R) (new method expectedSize r) (new method expectedSize s) := by
  cases method with
  | stored => exact .ok (.stored h)
  | deflated => exact .ok (.deflate ⟨rfl, h⟩)
  | deflate64 => exact .ok (.deflate64 ⟨rfl, h⟩)
  | bzip2 => exact drain_alike hR ⟨rfl, h⟩
  | zstd =>
    have hcall := hR.call .new (p := (⟨k.ruzstd.init, r⟩ : Pipe k.ruzstd σ))
      (q := ⟨k.ruzstd.init, s⟩) rfl h
    rw [new, new]
    rcases hp : (⟨k.ruzstd.init, r⟩ : Pipe k.ruzstd σ).call .new with ⟨x, p'⟩
    rcases hq : (⟨k.ruzstd.init, s⟩ : Pipe k.ruzstd τ).call .new with ⟨y, q'⟩
    rw [hp, hq] at hcall
    obtain ⟨hanswer, hnext⟩ := hcall
    dsimp only at hanswer
    subst hanswer
    cases x with
    | error e => exact .error _ _ _
    | ok bs => exact drain_alike hR hnext
  | lzma => exact drainWith_alike hR _ h
  | xz => exact drainWith_alike hR _ h
  | _ => exact .error _ _ _

end Decoder

end ZipForensic
