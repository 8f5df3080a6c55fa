import ZipForensic.Core.AesStream
import ZipForensic.Core.AlikeDecoders
import ZipForensic.Stream.Endings

/-!
# Decoders over the AES stream (codec.rs)

The authentication code is only looked at by a read of the AES stream behind its last
ciphertext byte. Whether such a read takes place, and what becomes of its failure, is up
to the decoder of the entry's compression method.

- `EndsAuthenticated`: whenever the end of the stream is reported, the code was read and
  found right. `EndsForged`: no state is authenticated, and yet reads come to a point
  from which they never fail, so that the end is reported.
- `Follows`: a decoder that has a whole stream in reach reports the end where it would do so
  over the compressed data alone, and looks at the code where it would ask for more of these.
- One of the three holds of every decoder over the stream, and `AesEntry.Heeded` says which
  (`Decoder.new_ends`).
-/

namespace ZipForensic

open AesReader (Quiet Checked Authenticated)

variable {k : Crates}

/-- What the entry path relies on of its streaming decompressors: beside what holds of all
decoders of self-delimiting streams, the contents of a whole stream, and that a failure from
below is handed on and can be retried. -/
structure InflateSpec (K : Codec IoError) extends FrameSpec K where
  contents : Bytes → Bytes
  emits : ∀ {inp}, status inp = .complete →
    Emits (⟨K.init, ⟨inp⟩⟩ : Pipe K (Window IoError)) (contents inp)
  resumes : K.Resumes

/-- The note of the probe does not show. -/
theorem InflateSpec.emits_probe {K : Codec IoError} (spec : InflateSpec K) {inp : Bytes}
    (h : spec.status inp = .complete) :
    Emits (⟨K.init, ⟨inp, false⟩⟩ : Pipe K (Probe IoError)) (spec.contents inp) :=
  (Emits.map (r := (⟨K.init, ⟨inp, false⟩⟩ : Pipe K (Probe IoError)))
    (Pipe.readHom_map Probe.readHom_window)).1 (spec.emits h)

/-- The decompressors of self-delimiting streams. -/
structure FrameCodecs (k : Crates) where
  flate2 : InflateSpec k.flate2
  deflate64 : InflateSpec k.deflate64
  bzip2 : FrameSpec k.bzip2
  ruzstd : FrameSpec k.ruzstd

namespace AesEntry

variable (k) (x : AesEntry)

/-- Behind the check of the stream comes that of the CRC-32, for AE-1, and it fails. -/
def FailsCrc (crc32 : UInt32) (contents : Bytes) : Prop :=
  x.info.isAe2 = false ∧ k.crc32 contents ≠ crc32

/-- What the decoder finds at the end of the ciphertext counts: a stream that ends early must
not be passed over, and a whole stream must not be reported to end (again, if its CRC-32 is
wrong) before the decoder asks for more. -/
structure HeededBy (crc32 : UInt32) {K : Codec IoError} (spec : InflateSpec K) : Prop where
  early : spec.status (x.plaintext k) = .incomplete →
    x.Truncated ∨ x.Authentic k ∨ spec.lenient = false
  whole : spec.status (x.plaintext k) = .complete →
    (x.Truncated ∨ x.Authentic k) ∧ ¬ K.EndsUnasked (x.plaintext k)
      (x.FailsCrc k crc32 (spec.contents (x.plaintext k)))

/-- A decoder that decodes everything when it is opened does not do so before it has asked for
more than the compressed data. -/
def AskedWhenOpened (method : CompressionMethod) (expectedSize : Nat) : Prop :=
  ∃ d : Decoder k (Probe IoError),
    Decoder.new method expectedSize (⟨x.plaintext k, false⟩ : Probe IoError) = .ok d ∧
      d.input.asked = true

variable {k}

/-- The condition, by compression method, for an entry that can be opened. -/
def Heeded (specs : FrameCodecs k) (crc32 : UInt32) (expectedSize : Nat) :
    CompressionMethod → Prop
  | .stored => x.Truncated ∨ x.Authentic k
  | .deflated => x.HeededBy k crc32 specs.flate2
  | .deflate64 => x.HeededBy k crc32 specs.deflate64
  -- decoded when the entry was opened
  | .bzip2 => specs.bzip2.status (x.plaintext k) ≠ .complete ∨
      x.Authentic k ∧ x.AskedWhenOpened k .bzip2 expectedSize
  | .zstd => specs.ruzstd.status (x.plaintext k) ≠ .complete ∨
      x.Authentic k ∧ x.AskedWhenOpened k .zstd expectedSize
  -- read to the end when the entry was opened
  | _ => True

end AesEntry

/-! ## Stacks over the AES stream -/

section Stacks

variable {ρ σ : Type} [Read IoError ρ] [Read IoError σ] {x : AesEntry}

/-- Whenever `r` reports the end, the AES stream below it is authenticated. -/
def EndsAuthenticated (x : AesEntry) (inner : ρ → AesReader k (Window IoError)) (r : ρ) : Prop :=
  ∀ ns n, (∀ m ∈ ns, 0 < m) → 0 < n → (read n (reads ns r).2).1 = .ok [] →
    Authenticated x (inner (read n (reads ns r).2).2)

/-- The AES stream below `r` is never authenticated, and some run comes to a point from
which reads never fail. -/
def EndsForged (x : AesEntry) (inner : ρ → AesReader k (Window IoError)) (r : ρ) : Prop :=
  (∀ ns, (∀ m ∈ ns, 0 < m) → ¬ Authenticated x (inner (reads ns r).2)) ∧
    ∃ ns, (∀ m ∈ ns, 0 < m) ∧ Flows (reads ns r).2

/-- The decoder answers as `q` does over the compressed data alone, as long as that is not asked
for more, and the code is not looked at. It ends where `q` does, over an authenticated stream if
`q` was asked for more. -/
structure Follows {K : Codec IoError} (x : AesEntry)
    (inner : ρ → AesReader k (Window IoError)) (r : ρ) (q : Pipe K (Probe IoError)) : Prop where
  unasked : ∀ ns, (reads ns q).2.inner.asked = false →
    (reads ns r).1 = (reads ns q).1 ∧ ¬ Authenticated x (inner (reads ns r).2)
  ends : ∀ ns n, (∀ m ∈ ns, 0 < m) → 0 < n → (read n (reads ns r).2).1 = .ok [] →
    (reads ns r).1 = (reads ns q).1 ∧ (read n (reads ns q).2).1 = .ok [] ∧
      (Authenticated x (inner (read n (reads ns r).2).2) ∨
        (read n (reads ns q).2).2.inner.asked = false)

/-- How the ends of a decoder over the stream stand to the check. -/
inductive Ends (x : AesEntry) (crc32 : UInt32) (heeded : Prop)
    (inner : ρ → AesReader k (Window IoError)) (r : ρ) : Prop
  | authenticated (h : heeded) (ends : EndsAuthenticated x inner r)
  | forged (h : ¬ heeded) (ends : EndsForged x inner r)
  | follows {K : Codec IoError} (spec : InflateSpec K)
      (whole : spec.status (x.plaintext k) = .complete)
      (h : heeded ↔ ¬ K.EndsUnasked (x.plaintext k)
        (x.FailsCrc k crc32 (spec.contents (x.plaintext k))))
      (ends : Follows x inner r (⟨K.init, ⟨x.plaintext k, false⟩⟩ : Pipe K (Probe IoError)))

variable {inner : ρ → AesReader k (Window IoError)} {r : ρ}

/-- An invariant under which only an authenticated stream ends. -/
theorem EndsAuthenticated.of_invariant {I : ρ → Prop}
    (hI : ∀ {r n}, I r → 0 < n → I (read n r).2)
    (hend : ∀ {r n}, I r → 0 < n → (read n r).1 = .ok [] → Authenticated x (inner (read n r).2))
    (hr : I r) : EndsAuthenticated x inner r :=
  fun _ _ hns hn h => hend (reads_invariant I hI hns hr) hn h

variable {f : ρ → σ} (hf : ReadHom f) {inner' : σ → AesReader k (Window IoError)}
  (hinner : ∀ r, inner' (f r) = inner r)

include hf hinner

theorem EndsAuthenticated.map (h : EndsAuthenticated x inner r) :
    EndsAuthenticated x inner' (f r) := by
  intro ns n hns hn hend
  rw [reads_map hf, hf.read_map] at hend ⊢
  rw [hinner]
  exact h ns n hns hn hend

theorem EndsForged.map (h : EndsForged x inner r) : EndsForged x inner' (f r) := by
  obtain ⟨hnever, ns, hns, hflow⟩ := h
  refine ⟨fun ms hms => ?_, ns, hns, fun ms n hms hn => ?_⟩
  · rw [reads_map hf, hinner]
    exact hnever ms hms
  · rw [reads_map hf, reads_map hf, hf.read_map]
    exact hflow ms n hms hn

theorem Follows.map {K : Codec IoError} {q : Pipe K (Probe IoError)} (h : Follows x inner r q) :
    Follows x inner' (f r) q where
  unasked ns hq := by
    rw [reads_map hf, hinner]
    exact h.unasked ns hq
  ends ns n hns hn hend := by
    rw [reads_map hf, hf.read_map] at hend ⊢
    rw [hinner]
    exact h.ends ns n hns hn hend

theorem Ends.map {crc32 : UInt32} {heeded : Prop} (h : Ends x crc32 heeded inner r) :
    Ends x crc32 heeded inner' (f r) := by
  cases h with
  | authenticated h ends => exact .authenticated h (ends.map hf hinner)
  | forged h ends => exact .forged h (ends.map hf hinner)
  | follows spec whole h ends => exact .follows spec whole h (ends.map hf hinner)

end Stacks

/-! ## The AES stream by itself -/

namespace AesReader

variable {x : AesEntry} {r : AesReader k (Window IoError)} {n : Nat}

/-- A successful read goes on with the ciphertext, or authenticates it. -/
theorem Quiet.read_ok (h : Quiet x r) (hn : 0 < n) {bs : Bytes}
    (hread : (read n r).1 = .ok bs) :
    (bs ≠ [] ∧ Quiet x (read n r).2) ∨ (bs = [] ∧ Authenticated x (read n r).2) := by
  by_cases hrest : (delivers k).rest r = []
  · by_cases ht : x.Truncated
    · rw [h.read_truncated hrest ht] at hread
      cases hread
    · by_cases ha : x.Authentic k
      · obtain ⟨hok, hauth⟩ := h.read_authentic (n := n) hrest ha
        rw [hok] at hread
        exact .inr ⟨(Except.ok.inj hread).symm, hauth⟩
      · obtain ⟨⟨e, he⟩, -⟩ := h.read_forged (n := n) hrest ht ha
        rw [he] at hread
        cases hread
  · obtain ⟨b, bs', hok, -⟩ := (delivers k).read_rest hrest hn
    rw [hok] at hread
    exact .inl ⟨Except.ok.inj hread ▸ List.cons_ne_nil b bs', h.read_more hrest hn⟩

/-- At the end, a read of a stream that is cut short changes nothing, and one of an authentic
stream does not fail. -/
theorem Quiet.read_error (h : Quiet x r) (hx : x.Truncated ∨ x.Authentic k)
    (hrest : (delivers k).rest r = []) {e : IoError} (hread : (read n r).1 = .error e) :
    Quiet x (read n r).2 := by
  rcases hx with ht | ha
  · rwa [h.read_truncated hrest ht]
  · rw [(h.read_authentic hrest ha).1] at hread
    cases hread

/-- Nothing was authenticated without the code being read. -/
def Honest (x : AesEntry) (r : AesReader k (Window IoError)) : Prop :=
  Quiet x r ∨ Authenticated x r

theorem Honest.read_ok (h : Honest x r) (hn : 0 < n) {bs : Bytes}
    (hread : (read n r).1 = .ok bs) : Honest x (read n r).2 := by
  rcases h with h | h
  · rcases h.read_ok hn hread with ⟨-, hquiet⟩ | ⟨-, hauth⟩
    · exact .inl hquiet
    · exact .inr hauth
  · rw [h.read]
    exact .inr h

theorem Honest.read_end (h : Honest x r) (hn : 0 < n) (hread : (read n r).1 = .ok []) :
    Authenticated x (read n r).2 := by
  rcases h with h | h
  · rcases h.read_ok hn hread with ⟨hne, -⟩ | ⟨-, hauth⟩
    · exact absurd rfl hne
    · exact hauth
  · rwa [h.read]

theorem endsAuthenticated (hx : x.Truncated ∨ x.Authentic k) (hr : Quiet x r) :
    EndsAuthenticated x id r := by
  refine .of_invariant (I := Honest x) ?_ (fun h hn hread => h.read_end hn hread) (.inl hr)
  intro r n h hn
  cases hread : (read n r).1 with
  | ok bs => exact h.read_ok hn hread
  | error e =>
    rcases h with h | h
    · by_cases hrest : (delivers k).rest r = []
      · exact .inl (h.read_error hx hrest hread)
      · exact .inl (h.read_more hrest hn)
    · rw [h.read] at hread
      cases hread

theorem Checked.flows (h : Checked r) : Flows r := by
  refine .of_invariant (I := Checked) (fun {r n} h _ => ?_) h
  rw [h.read]
  exact ⟨h, [], rfl⟩

theorem endsForged (ht : ¬ x.Truncated) (ha : ¬ x.Authentic k) (hr : Quiet x r) :
    EndsForged x id r := by
  refine ⟨fun ns _ h => ha h.authentic, ?_⟩
  have hstep : ∀ {r : AesReader k (Window IoError)} {n}, Quiet x r ∨ Checked r → 0 < n →
      Quiet x (read n r).2 ∨ Checked (read n r).2 := by
    intro r n h hn
    rcases h with h | h
    · by_cases hrest : (delivers k).rest r = []
      · exact .inr (h.read_forged hrest ht ha).2
      · exact .inl (h.read_more hrest hn)
    · rw [h.read]
      exact .inr h
  obtain ⟨m, hstop⟩ := exists_stop 1 r
  have hpos : ∀ n ∈ List.replicate m 1, 0 < n := fun n hn => by
    rw [List.eq_of_mem_replicate hn]
    exact Nat.one_pos
  have hmid := reads_invariant (fun r => Quiet x r ∨ Checked r) hstep hpos (.inl hr)
  refine ⟨List.replicate m 1 ++ [1], ?_, ?_⟩
  · intro n hn
    rcases List.mem_append.1 hn with hn | hn
    · exact hpos n hn
    · rw [List.mem_singleton.1 hn]
      exact Nat.one_pos
  · rw [reads_append]
    rcases hmid with h | h
    · -- the first read that does not deliver fails the check
      have hrest : (delivers k).rest (reads (List.replicate m 1) r).2 = [] := by
        by_contra hrest
        obtain ⟨b, bs, hok, -⟩ := (delivers k).read_rest hrest Nat.one_pos
        exact hstop b bs hok
      exact (h.read_forged hrest ht ha).2.flows
    · exact h.flows.after (by simp)

/-! ### Beside the compressed data -/

theorem handsOut (x : AesEntry) : HandsOut (delivers k).rest (Quiet (k := k) x) where
  more h hne hn := ⟨(read_take hne hn).1, (read_take hne hn).2, h.read_more hne hn⟩
  le_avail {r} _ := by
    show (r.cipher.apply k (r.inner.rest.take r.remaining)).1.length ≤ r.remaining
    rw [length_apply, List.length_take]
    exact Nat.min_le_left _ _

/-- The reader of an authentic entry: its compressed data, and the end. -/
theorem concludes (ha : x.Authentic k) :
    Concludes (delivers k).rest (Quiet x) (Authenticated x) where
  toHandsOut := handsOut x
  ends h hend _ := h.read_authentic hend ha
  ended h _ := by
    rw [h.read]
    exact ⟨rfl, h⟩
  avail_eq h := h.remaining_eq ha.not_truncated
  avail_ended h := h.spent

/-- The reader of an entry that is cut short: its compressed data, and no end. -/
theorem blocks (ht : x.Truncated) : Blocks (delivers k).rest (Quiet (k := k) x) where
  toHandsOut := handsOut x
  blocked h hend _ := ⟨_, h.read_truncated hend ht⟩

end AesReader

/-! ## Decoders over it -/

namespace Pipe

variable {K : Codec IoError} (spec : FrameSpec K) {x : AesEntry}

/-- A decoder that was told of the end was told so by an authenticated stream. -/
def Phase (x : AesEntry) (told : Bool) (r : AesReader k (Window IoError)) : Prop :=
  match told with
  | false => Quiet x r
  | true => Authenticated x r

/-- The decoder was not told of the end, and the code was not looked at. -/
def Unasked (x : AesEntry) (told : Bool) (r : AesReader k (Window IoError)) : Prop :=
  told = false ∧ Quiet x r

/-- The code was not looked at, or it was and is not looked at again. -/
def Passed (x : AesEntry) (told : Bool) (r : AesReader k (Window IoError)) : Prop :=
  Unasked x told r ∨ Checked r

/-- An invariant of a decoder over the stream of `x`. -/
abbrev Over (x : AesEntry) (Q : Bool → AesReader k (Window IoError) → Prop)
    (p : Pipe K (AesReader k (Window IoError))) : Prop :=
  p.Holds spec (AesReader.delivers k) (x.plaintext k) Q

variable {spec} {p : Pipe K (AesReader k (Window IoError))}

theorem guarded_phase : Guarded (AesReader.delivers k) (Phase x) where
  more {told r n} h hrest hn := by
    cases told with
    | false => exact AesReader.Quiet.read_more h hrest hn
    | true => exact absurd (AesReader.rest_nil_iff.2 (.inl (Authenticated.spent h))) hrest
  told {told r n} h _ hn hread := by
    cases told with
    | false => exact (AesReader.Honest.read_end (.inl h) hn hread)
    | true => exact (AesReader.Honest.read_end (.inr h) hn hread)

theorem guarded_checked : Guarded (AesReader.delivers k) fun _ r => Checked r where
  more h hrest _ := absurd (AesReader.rest_nil_iff.2 (.inl h.spent)) hrest
  told {_ r n} h _ _ _ := by
    rw [h.read]
    exact h

theorem guarded_passed (ht : ¬ x.Truncated) (ha : ¬ x.Authentic k) :
    Guarded (AesReader.delivers k) (Passed x) where
  more h hrest hn := by
    rcases h with h | h
    · exact .inl ⟨h.1, h.2.read_more hrest hn⟩
    · exact absurd (AesReader.rest_nil_iff.2 (.inl h.spent)) hrest
  told {told r n} h hrest _ _ := by
    rcases h with h | h
    · exact .inr (h.2.read_forged hrest ht ha).2
    · rw [h.read]
      exact .inr h

/-- The decoder as it is set up. -/
theorem over_init {Q : Bool → AesReader k (Window IoError) → Prop} {name : String}
    (hQ : Q false (x.reader k name)) : Over spec x Q ⟨K.init, x.reader k name⟩ :=
  ⟨false, [], ⟨spec.given_init, (List.nil_append _).trans (x.apply_ciphertext k), nofun⟩, hQ⟩

/-- Short of a whole stream, a decoder comes to the end of the ciphertext, and what it finds
there counts. -/
theorem endsAuthenticated (hdata : spec.status (x.plaintext k) ≠ .complete)
    (hx : spec.status (x.plaintext k) = .incomplete →
      x.Truncated ∨ x.Authentic k ∨ spec.lenient = false)
    (hp : Over spec x (Phase x) p) : EndsAuthenticated x Pipe.inner p := by
  by_cases hstrict : spec.status (x.plaintext k) = .incomplete → spec.lenient = false
  · -- the end is never reported
    have hfree : Guarded (AesReader.delivers k)
        fun (_ : Bool) (_ : AesReader k (Window IoError)) => True :=
      ⟨fun _ _ _ => trivial, fun _ _ _ _ => trivial⟩
    refine .of_invariant (I := Over spec x fun _ _ => True) ?_ ?_ ?_
    · exact fun h _ => (call_outcome hfree h).holds hfree (.inr fun _ _ _ _ => trivial)
    · exact fun h hn hend => absurd hend (read_ne_end hfree h hdata hstrict hn)
    · obtain ⟨told, inp, htracks, -⟩ := hp
      exact ⟨told, inp, htracks, trivial⟩
  · obtain ⟨hinc, hlenient⟩ := Classical.not_imp.1 hstrict
    have hend : x.Truncated ∨ x.Authentic k := by
      rcases hx hinc with ht | ha | hno
      · exact .inl ht
      · exact .inr ha
      · exact absurd hno hlenient
    refine .of_invariant (I := Over spec x (Phase x)) ?_ ?_ hp
    · intro p n h _
      refine (call_outcome guarded_phase h).holds guarded_phase (.inr ?_)
      intro told r n e hr hrest _ he
      cases told with
      | false => exact AesReader.Quiet.read_error hr hend hrest he
      | true =>
        rw [Authenticated.read hr] at he
        cases he
    · exact fun h hn hend => read_eq_end guarded_phase h hdata hn hend

section Forged

variable (hdata : spec.status (x.plaintext k) ≠ .corrupt)
  (hlenient : spec.status (x.plaintext k) = .incomplete → spec.lenient = true)
include hdata hlenient

/-- Once the check was made, the decoder does not fail. -/
theorem flows_checked (hp : Over spec x (fun _ r => Checked r) p) : Flows p := by
  refine Flows.of_invariant (I := Over spec x fun _ r => Checked r) (fun {p n} h hn => ⟨?_, ?_⟩) hp
  · refine (call_outcome guarded_checked h).holds guarded_checked (.inr ?_)
    intro _ r n e hr _ _ _
    rw [hr.read]
    exact hr
  · cases hread : (read n p).1 with
    | ok bs => exact ⟨bs, rfl⟩
    | error e =>
      obtain ⟨told, r, m, e', hr, -, -, he, -⟩ :=
        read_error guarded_checked h hdata hlenient hn hread
      rw [hr.read] at he
      cases he

/-- With a wrong code, the check fails if it is made, and is then passed over. -/
theorem endsForged (ht : ¬ x.Truncated) (ha : ¬ x.Authentic k)
    (hp : Over spec x (Passed x) p) : EndsForged x Pipe.inner p := by
  refine ⟨fun ns _ h => ha h.authentic, ?_⟩
  have hguard : Guarded (AesReader.delivers k) (Passed x) := guarded_passed ht ha
  have hstep : ∀ {p : Pipe K (AesReader k (Window IoError))} {n},
      Over spec x (Passed x) p → 0 < n → Over spec x (Passed x) (read n p).2 := by
    refine fun h _ => (call_outcome hguard h).holds hguard (.inr ?_)
    intro _ _ _ _ hr hrest _ _
    rcases hr with hr | hr
    · exact .inr (hr.2.read_forged hrest ht ha).2
    · rw [hr.read]
      exact .inr hr
  by_cases hflow : Flows p
  · exact ⟨[], nofun, hflow⟩
  · -- the first error comes from the check
    simp only [Flows, not_forall] at hflow
    obtain ⟨ns, n, hns, hn, hno⟩ := hflow
    have hmid := reads_invariant _ hstep hns hp
    refine ⟨ns ++ [n], ?_, ?_⟩
    · intro m hm
      rcases List.mem_append.1 hm with hm | hm
      · exact hns m hm
      · rwa [List.mem_singleton.1 hm]
    · rw [reads_append]
      show Flows (read n (reads ns p).2).2
      obtain ⟨told, inp, htracks, -⟩ := hstep hmid hn
      refine flows_checked hdata hlenient ⟨told, inp, htracks, ?_⟩
      cases hread : (read n (reads ns p).2).1 with
      | ok bs => exact absurd ⟨bs, hread⟩ hno
      | error e =>
        obtain ⟨told, r, m, e', hr, hrest, -, he, hinner⟩ :=
          read_error hguard hmid hdata hlenient hn hread
        rw [hinner]
        rcases hr with hr | hr
        · exact (hr.2.read_forged hrest ht ha).2
        · rw [hr.read] at he
          cases he

end Forged

/-- Where the file ends within the ciphertext, or has the right code behind it, the decoder
follows the one over the compressed data alone. -/
theorem follows (hK : K.Resumes) (hx : x.Truncated ∨ x.Authentic k) (name : String) :
    Follows x Pipe.inner (⟨K.init, x.reader k name⟩ : Pipe K (AesReader k (Window IoError)))
      ⟨K.init, ⟨x.plaintext k, false⟩⟩ := by
  have hstart : InStep (AesReader.delivers k).rest (Quiet x) ⟨K.init, x.reader k name⟩
      (⟨K.init, ⟨x.plaintext k, false⟩⟩ : Pipe K (Probe IoError)) :=
    ⟨rfl, AesReader.quiet_reader name, congrArg (Probe.mk · false) (x.apply_ciphertext k).symm⟩
  refine ⟨fun ns hq => ?_, fun ns n hns hn hend => ?_⟩
  · obtain ⟨hsame, hlast⟩ := hstart.reads_unasked (AesReader.handsOut x) hq
    exact ⟨hsame, hlast.before.not_authenticated⟩
  · rcases hx with ht | ha
    · obtain ⟨hsame, hread, hq⟩ := hstart.ends_unasked (AesReader.blocks ht) hK hns hn hend
      exact ⟨hsame, hread, .inr hq⟩
    · have hsim := (AesReader.concludes ha).readSim.pipe (K := K)
      obtain ⟨hsame, hlast⟩ := hsim.reads hns ⟨hstart.state, .inl ⟨hstart.before, hstart.inner⟩⟩
      obtain ⟨hread, -, hbelow⟩ := hsim.read hlast hn
      refine ⟨hsame, hread.symm.trans hend, ?_⟩
      rcases hbelow with ⟨-, hprobe⟩ | ⟨hauth, -⟩
      · exact .inr (congrArg Probe.asked hprobe)
      · exact .inl hauth

/-- A streaming decoder, as it is set up. -/
theorem ends {K : Codec IoError} (spec : InflateSpec K) (crc32 : UInt32) (name : String) :
    Ends x crc32 (x.HeededBy k crc32 spec) Pipe.inner
      (⟨K.init, x.reader k name⟩ : Pipe K (AesReader k (Window IoError))) := by
  have hquiet := AesReader.quiet_reader (k := k) (x := x) name
  have hphase : Over spec.toFrameSpec x (Phase x) ⟨K.init, x.reader k name⟩ := over_init hquiet
  have hpassed : Over spec.toFrameSpec x (Passed x) ⟨K.init, x.reader k name⟩ :=
    over_init (.inl ⟨rfl, hquiet⟩)
  cases hstatus : spec.status (x.plaintext k) with
  | incomplete =>
    have hne : spec.status (x.plaintext k) ≠ .complete := by rw [hstatus]; nofun
    by_cases hearly : x.Truncated ∨ x.Authentic k ∨ spec.lenient = false
    · refine .authenticated ⟨fun _ => hearly, fun h => absurd h hne⟩ ?_
      exact endsAuthenticated hne (fun _ => hearly) hphase
    · refine .forged (fun h => hearly (h.early hstatus)) ?_
      simp only [not_or] at hearly
      obtain ⟨ht, ha, hlenient⟩ := hearly
      exact endsForged (by rw [hstatus]; nofun) (fun _ => Bool.of_not_eq_false hlenient) ht ha
        hpassed
  | corrupt =>
    have hne : spec.status (x.plaintext k) ≠ .complete := by rw [hstatus]; nofun
    have hearly : spec.status (x.plaintext k) ≠ .incomplete := by rw [hstatus]; nofun
    refine .authenticated ⟨fun h => absurd h hearly, fun h => absurd h hne⟩ ?_
    exact endsAuthenticated hne (fun h => absurd h hearly) hphase
  | complete =>
    have hearly : spec.status (x.plaintext k) ≠ .incomplete := by rw [hstatus]; nofun
    by_cases hx : x.Truncated ∨ x.Authentic k
    · refine .follows spec hstatus ?_ (follows spec.resumes hx name)
      constructor
      · exact fun h => (h.whole hstatus).2
      · exact fun h => ⟨fun h => absurd h hearly, fun _ => ⟨hx, h⟩⟩
    · refine .forged (fun h => hx (h.whole hstatus).1) ?_
      obtain ⟨ht, ha⟩ := not_or.1 hx
      exact endsForged (by rw [hstatus]; nofun) (fun h => absurd h hearly) ht ha hpassed

end Pipe

/-! ## Decoders that read ahead -/

namespace Decoder

variable {x : AesEntry}

/-- A decoder that decoded everything when it was opened leaves the stream alone. -/
theorem input_reads_buffered (ns : List Nat) (w : Window IoError)
    (r : AesReader k (Window IoError)) :
    (reads ns (.buffered w r : Decoder k (AesReader k (Window IoError)))).2.input = r := by
  induction ns generalizing w with
  | nil => rfl
  | cons n ns ih => exact ih _

theorem endsAuthenticated_buffered {w : Window IoError} {r : AesReader k (Window IoError)}
    (h : Authenticated x r) :
    EndsAuthenticated x Decoder.input (.buffered w r : Decoder k (AesReader k (Window IoError))) := by
  intro ns n _ _ _
  have happend := input_reads_buffered (ns ++ [n]) w r
  rw [reads_append] at happend
  rwa [show Decoder.input (read n (reads ns (.buffered w r)).2).2 = r from happend]

theorem endsForged_buffered {w : Window IoError} {r : AesReader k (Window IoError)}
    (h : ¬ Authenticated x r) :
    EndsForged x Decoder.input (.buffered w r : Decoder k (AesReader k (Window IoError))) := by
  refine ⟨fun ns _ => ?_, [], nofun, ?_⟩
  · rwa [input_reads_buffered]
  · refine Flows.of_invariant
      (I := fun d : Decoder k (AesReader k (Window IoError)) => ∃ w r, d = .buffered w r) ?_ ⟨w, r, rfl⟩
    rintro d n ⟨w, r, rfl⟩ _
    exact ⟨⟨_, _, rfl⟩, _, rfl⟩

section Drain

variable {K : Codec IoError} {spec : FrameSpec K} {p : Pipe K (AesReader k (Window IoError))}
  {d : Decoder k (AesReader k (Window IoError))}

/-- Draining a decoder ends with a read of its own that reports the end. -/
theorem of_drain {Q : Bool → AesReader k (Window IoError) → Prop}
    (hQ : Guarded (AesReader.delivers k) Q) (hp : Pipe.Over spec x Q p)
    (h : drain p = .ok d) :
    ∃ w p₁ p₂ n, Pipe.Over spec x Q p₁ ∧ 0 < n ∧ read n p₁ = (.ok [], p₂) ∧
      d = .buffered w p₂.inner := by
  rw [drain, readCapped] at h
  rcases hread : readToEnd (⟨p, maxBufferedDecode + 1⟩ : Take (Pipe K _)) with ⟨e | out, t⟩
  · rw [hread] at h
    cases h
  · rw [hread] at h
    dsimp only at h
    split_ifs at h with hcap
    obtain ⟨p₁, n, hp₁, hn, hend⟩ :=
      readToEndLoop_take_last (I := Pipe.Over spec x Q)
        (fun h _ hok => (Pipe.call_outcome hQ h).holds hQ (.inl ⟨_, hok⟩))
        (Nat.lt_succ_self _) hp hread (by simpa using by omega)
    exact ⟨⟨out⟩, p₁, t.inner, n, hp₁, hn, hend, (Except.ok.inj h).symm⟩

theorem drain_endsAuthenticated (hdata : spec.status (x.plaintext k) ≠ .complete)
    (hp : Pipe.Over spec x (Pipe.Phase x) p) (h : drain p = .ok d) :
    EndsAuthenticated x Decoder.input d := by
  obtain ⟨w, p₁, p₂, n, hp₁, hn, hend, rfl⟩ := of_drain Pipe.guarded_phase hp h
  have hauth : Authenticated x (read n p₁).2.inner :=
    Pipe.read_eq_end Pipe.guarded_phase hp₁ hdata hn (by rw [hend])
  rw [hend] at hauth
  exact endsAuthenticated_buffered hauth

end Drain

/-- The one-shot decoders read the stream to its end first. -/
theorem drainWith_endsAuthenticated {decode : Bytes → Except ZipCoreError Bytes}
    {r : AesReader k (Window IoError)} {d : Decoder k (AesReader k (Window IoError))}
    (hr : Quiet x r) (h : drainWith decode r = .ok d) : EndsAuthenticated x Decoder.input d := by
  rw [drainWith] at h
  rcases hread : readToEnd r with ⟨e | raw, r'⟩
  · rw [hread] at h
    cases h
  · rw [hread] at h
    obtain ⟨r₁, hr₁, hend⟩ := readToEndLoop_last (I := AesReader.Honest x)
      (fun h hok => h.read_ok (by decide) hok) (Nat.lt_succ_self _) (.inl hr) hread
    have hauth : Authenticated x (read bufSize r₁).2 := hr₁.read_end (by decide) (by rw [hend])
    rw [hend] at hauth
    dsimp only at h
    cases hdecode : decode raw with
    | error e =>
      rw [hdecode] at h
      cases h
    | ok decoded =>
      rw [hdecode] at h
      rw [← Except.ok.inj h]
      exact endsAuthenticated_buffered hauth

/-! ## Opening -/

/-- A decoder that has decoded everything is authenticated if the code is right and was asked
for, as it would have been over the compressed data alone. -/
theorem authenticated_iff_asked {method : CompressionMethod} {size : Nat} {name : String}
    {d : Decoder k (AesReader k (Window IoError))}
    (h : Decoder.new method size (x.reader k name) = .ok d) :
    Authenticated x d.input ↔ x.Authentic k ∧ x.AskedWhenOpened k method size := by
  have halike := fun ha : x.Authentic k =>
    new_alike (k := k) (AesReader.concludes ha).readSim method size
      (.inl ⟨AesReader.quiet_reader name, congrArg (Probe.mk · false) (x.apply_ciphertext k).symm⟩)
  rw [h] at halike
  constructor
  · intro hauth
    have hopened := halike hauth.authentic
    generalize hprobe : (Decoder.new method size (⟨x.plaintext k, false⟩ : Probe IoError) :
      Except _ (Decoder k (Probe IoError))) = y at hopened
    cases hopened with
    | ok hd =>
      refine ⟨hauth.authentic, _, hprobe, ?_⟩
      rcases hd.input with ⟨hquiet, -⟩ | ⟨-, hasked⟩
      · exact absurd hauth hquiet.not_authenticated
      · exact congrArg Probe.asked hasked
  · rintro ⟨ha, d', hd', hasked⟩
    have hopened := halike ha
    rw [hd'] at hopened
    cases hopened with
    | ok hd =>
      rcases hd.input with ⟨-, hprobe⟩ | ⟨hauth, -⟩
      · rw [hprobe] at hasked
        cases hasked
      · exact hauth

/-- The methods decoded when the entry is opened. -/
theorem drain_ends {K : Codec IoError} (spec : FrameSpec K) (crc32 : UInt32)
    {method : CompressionMethod} {size : Nat} {name : String}
    {d : Decoder k (AesReader k (Window IoError))} {p : Pipe K (AesReader k (Window IoError))}
    (hnew : Decoder.new method size (x.reader k name) = .ok d)
    (hp : Pipe.Over spec x (Pipe.Phase x) p) (hdrain : drain p = .ok d) :
    Ends x crc32 (spec.status (x.plaintext k) ≠ .complete ∨
      x.Authentic k ∧ x.AskedWhenOpened k method size) Decoder.input d := by
  have hiff := authenticated_iff_asked hnew
  by_cases hdata : spec.status (x.plaintext k) = .complete
  · obtain ⟨w, r, rfl⟩ := drain_buffered hdrain
    by_cases hauth : Authenticated x r
    · exact .authenticated (.inr (hiff.1 hauth)) (endsAuthenticated_buffered hauth)
    · refine .forged ?_ (endsForged_buffered hauth)
      rintro (hne | hasked)
      · exact hne hdata
      · exact hauth (hiff.2 hasked)
  · exact .authenticated (.inl hdata) (drain_endsAuthenticated hdata hp hdrain)

/-- The decoder of an opened entry, by compression method. -/
theorem new_ends (specs : FrameCodecs k) (crc32 : UInt32) {method : CompressionMethod} {size : Nat}
    {name : String} {d : Decoder k (AesReader k (Window IoError))}
    (h : Decoder.new method size (x.reader k name) = .ok d) :
    Ends x crc32 (x.Heeded specs crc32 size method) Decoder.input d := by
  have hquiet := AesReader.quiet_reader (k := k) (x := x) name
  cases method with
  | stored =>
    obtain rfl := Except.ok.inj h
    by_cases hx : x.Truncated ∨ x.Authentic k
    · exact .authenticated hx ((AesReader.endsAuthenticated hx hquiet).map readHom_stored
        fun _ => rfl)
    · obtain ⟨ht, ha⟩ := not_or.1 hx
      exact .forged hx ((AesReader.endsForged ht ha hquiet).map readHom_stored fun _ => rfl)
  | deflated =>
    obtain rfl := Except.ok.inj h
    exact (Pipe.ends specs.flate2 crc32 name).map readHom_deflate fun _ => rfl
  | deflate64 =>
    obtain rfl := Except.ok.inj h
    exact (Pipe.ends specs.deflate64 crc32 name).map readHom_deflate64 fun _ => rfl
  | bzip2 => exact drain_ends specs.bzip2 crc32 h (Pipe.over_init hquiet) h
  | zstd =>
    -- the constructor reads the frame header
    have hnew := h
    have hover : Pipe.Over specs.ruzstd x (Pipe.Phase x) ⟨k.ruzstd.init, x.reader k name⟩ :=
      Pipe.over_init hquiet
    have hout := Pipe.call_outcome (c := .new) Pipe.guarded_phase hover
    rw [new] at hnew
    rcases hcall : (⟨k.ruzstd.init, x.reader k name⟩ : Pipe k.ruzstd _).call .new with ⟨e | bs, p⟩
    · rw [hcall] at hnew
      cases hnew
    · rw [hcall] at hnew hout
      exact drain_ends specs.ruzstd crc32 h (hout.holds Pipe.guarded_phase (.inl ⟨bs, rfl⟩)) hnew
  | lzma => exact .authenticated trivial (drainWith_endsAuthenticated hquiet h)
  | xz => exact .authenticated trivial (drainWith_endsAuthenticated hquiet h)
  | _ => cases h

end Decoder

end ZipForensic
