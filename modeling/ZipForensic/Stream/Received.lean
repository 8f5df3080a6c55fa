import ZipForensic.Stream.Codec

/-!
# What a run of reads delivers

- `received`: the bytes of a list of answers, in order.
- `Finishes r ns n data`: the reads `ns` and one more go through `r` to its end without
  an error and deliver `data`.
- `Emits r data`: however `r` is read, it delivers `data` and then ends, for good.
- `RaisesOnly P ρ`: every error of a reader of kind `ρ` satisfies `P`. A codec hands on
  the property from the reader below (`Codec.RaisesOnly`).
-/

namespace ZipForensic

variable {ε ρ σ : Type}

/-- The bytes of one answer. -/
def deliveredBytes : Except ε Bytes → Bytes
  | .ok bs => bs
  | .error _ => []

@[simp] theorem deliveredBytes_ok (bs : Bytes) :
    deliveredBytes (.ok bs : Except ε Bytes) = bs := rfl

@[simp] theorem deliveredBytes_error (e : ε) :
    deliveredBytes (.error e : Except ε Bytes) = [] := rfl

/-- The bytes of the answers, in order. -/
def received (xs : List (Except ε Bytes)) : Bytes := xs.flatMap deliveredBytes

@[simp] theorem received_nil : received ([] : List (Except ε Bytes)) = [] := rfl

@[simp] theorem received_cons (x : Except ε Bytes) (xs : List (Except ε Bytes)) :
    received (x :: xs) = deliveredBytes x ++ received xs := rfl

/-! ## Runs to the end -/

section Runs

variable [Read ε ρ] [Read ε σ]

/-- The reads `ns` deliver `data` without an error, and the next one reports the end. -/
structure Finishes (r : ρ) (ns : List Nat) (n : Nat) (data : Bytes) : Prop where
  delivers : ∀ x ∈ (reads ns r).1, ∃ b bs, x = .ok (b :: bs)
  data_eq : received (reads ns r).1 = data
  ends : (read n (reads ns r).2).1 = .ok []

theorem Finishes.not_mem {r : ρ} {ns : List Nat} {n : Nat} {data : Bytes}
    (h : Finishes r ns n data) : .ok [] ∉ (reads ns r).1 := by
  intro hmem
  obtain ⟨b, bs, heq⟩ := h.delivers _ hmem
  cases heq

/-- The reads `ns` deliver without an error, and the next one fails. -/
structure Fails (r : ρ) (ns : List Nat) (n : Nat) (e : ε) : Prop where
  delivers : ∀ x ∈ (reads ns r).1, ∃ b bs, x = .ok (b :: bs)
  ends : (read n (reads ns r).2).1 = .error e

/-- Every run of reads of `r` delivers a front of `data`, and reports the end where all of
it is delivered. -/
def Emits (r : ρ) (data : Bytes) : Prop :=
  ∀ ns n, (∀ m ∈ ns, 0 < m) → 0 < n →
    ∃ bs, (read n (reads ns r).2).1 = .ok bs ∧ received (reads ns r).1 ++ bs <+: data ∧
      (bs = [] ↔ received (reads ns r).1 = data)

theorem Emits.map {f : ρ → σ} (hf : ReadHom f) {r : ρ} {data : Bytes} :
    Emits (f r) data ↔ Emits r data := by
  unfold Emits
  simp only [reads_map hf, hf.read_map]

/-- One read takes a piece off the front of what is left, and nothing only where nothing
is left. -/
structure Drains (rest : ρ → Bytes) (I : ρ → Prop) : Prop where
  read_ok : ∀ {r n}, I r → 0 < n → ∃ bs, (read n r).1 = .ok bs ∧
    bs ++ rest (read n r).2 = rest r ∧ (bs = [] → rest r = []) ∧ I (read n r).2

/-- A reader emits `data` where a relation to what is left is kept by every read. -/
theorem Emits.of_relation {R : ρ → Bytes → Prop}
    (hstep : ∀ {r data n}, R r data → 0 < n → ∃ bs rest, (read n r).1 = .ok bs ∧
      bs ++ rest = data ∧ (bs = [] → data = []) ∧ R (read n r).2 rest)
    {r : ρ} {data : Bytes} (hr : R r data) : Emits r data := by
  have hrun : ∀ {ns : List Nat}, (∀ n ∈ ns, 0 < n) → ∀ {r : ρ} {data : Bytes}, R r data →
      ∃ rest, R (reads ns r).2 rest ∧ received (reads ns r).1 ++ rest = data := by
    intro ns hns
    induction ns with
    | nil => exact fun hr => ⟨_, hr, rfl⟩
    | cons n ns ih =>
      intro r data hr
      obtain ⟨bs, rest, hread, rfl, -, hnext⟩ := hstep hr (hns n (List.mem_cons_self ..))
      obtain ⟨rest', hlast, rfl⟩ := ih (fun m hm => hns m (List.mem_cons_of_mem _ hm)) hnext
      exact ⟨rest', hlast, by
        rw [reads_cons, received_cons, hread, deliveredBytes_ok, List.append_assoc]⟩
  intro ns n hns hn
  obtain ⟨rest, hlast, rfl⟩ := hrun hns hr
  obtain ⟨bs, rest', hread, rfl, hend, -⟩ := hstep hlast hn
  refine ⟨bs, hread, ⟨rest', List.append_assoc ..⟩, ?_⟩
  constructor
  · intro hbs
    rw [hend hbs, List.append_nil]
  · intro hall
    exact (List.append_eq_nil_iff.1 (List.append_right_eq_self.1 hall.symm)).1

theorem Drains.emits {rest : ρ → Bytes} {I : ρ → Prop} (h : Drains rest I) {r : ρ} (hr : I r) :
    Emits r (rest r) := by
  refine Emits.of_relation (R := fun r data => I r ∧ rest r = data) ?_ ⟨hr, rfl⟩
  rintro r data n ⟨hI, rfl⟩ hn
  obtain ⟨bs, hread, hsplit, hend, hI'⟩ := h.read_ok hI hn
  exact ⟨bs, _, hread, hsplit, hend, hI', rfl⟩

/-- A limit cuts off what is left. -/
theorem Drains.take {rest : ρ → Bytes} {I : ρ → Prop} (h : Drains rest I)
    (hle : ∀ {r n}, I r → delivered (read n r).1 ≤ n) :
    Drains (fun t : Take ρ => (rest t.inner).take t.limit) fun t => I t.inner where
  read_ok := by
    rintro ⟨r, limit⟩ n hI hn
    by_cases hzero : limit = 0
    · subst hzero
      exact ⟨[], rfl, rfl, fun _ => List.take_zero, hI⟩
    · obtain ⟨bs, hread, hsplit, hend, hI'⟩ := h.read_ok hI (show 0 < min n limit by omega)
      have hshort : bs.length ≤ limit := by
        have hdelivered := hle hI (n := min n limit)
        rw [hread, delivered_ok] at hdelivered
        omega
      have hrest : (bs ++ rest (read (min n limit) r).2).take limit =
          bs ++ (rest (read (min n limit) r).2).take (limit - bs.length) := by
        rw [List.take_append, List.take_of_length_le hshort]
      rw [hsplit] at hrest
      have hall : read n (⟨r, limit⟩ : Take ρ) =
          (.ok bs, ⟨(read (min n limit) r).2, limit - bs.length⟩) :=
        Take.read_ok hzero (Prod.ext hread rfl)
      rw [hall]
      refine ⟨bs, rfl, hrest.symm, fun hnil => ?_, hI'⟩
      show (rest r).take limit = []
      rw [hend hnil, List.take_nil]

/-- What is left after one read. -/
theorem Emits.after {r : ρ} {data bs : Bytes} (h : Emits r data) {n : Nat} (hn : 0 < n)
    (hread : (read n r).1 = .ok bs) : Emits (read n r).2 (data.drop bs.length) := by
  intro ns m hns hm
  obtain ⟨last, hlast, hfront, hend⟩ := h (n :: ns) m (List.forall_mem_cons.2 ⟨hn, hns⟩) hm
  rw [reads_cons, received_cons, hread, deliveredBytes_ok, List.append_assoc] at hfront
  rw [reads_cons, received_cons, hread, deliveredBytes_ok] at hend
  obtain ⟨tail, rfl⟩ := hfront
  rw [List.append_assoc, List.drop_left]
  refine ⟨last, hlast, ⟨tail, rfl⟩, hend.trans ?_⟩
  rw [List.append_assoc, List.append_right_inj]

/-- A run that finishes has delivered everything. -/
theorem Emits.eq_of_finishes {r : ρ} {data data' : Bytes} (h : Emits r data) {ns : List Nat}
    {n : Nat} (hns : ∀ m ∈ ns, 0 < m) (hn : 0 < n) (hfin : Finishes r ns n data') :
    data' = data := by
  obtain ⟨bs, hread, -, hend⟩ := h ns n hns hn
  obtain rfl : bs = [] := Except.ok.inj (hread.symm.trans hfin.ends)
  exact hfin.data_eq.symm.trans (hend.1 rfl)

theorem received_append (xs ys : List (Except ε Bytes)) :
    received (xs ++ ys) = received xs ++ received ys :=
  List.flatMap_append

/-- A limit cuts off what is emitted. -/
theorem Emits.take [LawfulRead ε ρ] {r : ρ} {data : Bytes} (h : Emits r data) (limit : Nat) :
    Emits (⟨r, limit⟩ : Take ρ) (data.take limit) := by
  refine Emits.of_relation
    (R := fun t front => ∃ data, Emits t.inner data ∧ front = data.take t.limit) ?_ ⟨data, h, rfl⟩
  rintro ⟨r, limit⟩ front n ⟨data, h, rfl⟩ hn
  by_cases hzero : limit = 0
  · subst hzero
    exact ⟨[], [], rfl, rfl, fun _ => rfl, data, h, rfl⟩
  · have hpos : 0 < min n limit := by omega
    obtain ⟨bs, hread, hfront, hend⟩ := h [] (min n limit) nofun hpos
    change (read (min n limit) r).1 = .ok bs at hread
    obtain ⟨rest, rfl⟩ : bs <+: data := hfront
    have hshort := LawfulRead.read_le (min n limit) r
    rw [hread, delivered_ok] at hshort
    have hnext := h.after hpos hread
    rw [List.drop_left] at hnext
    have hall : read n (⟨r, limit⟩ : Take ρ) =
        (.ok bs, ⟨(read (min n limit) r).2, limit - bs.length⟩) :=
      Take.read_ok hzero (Prod.ext hread rfl)
    rw [hall]
    refine ⟨bs, rest.take (limit - bs.length), rfl, ?_, ?_, rest, hnext, rfl⟩
    · have hcut : bs.take limit = bs := List.take_of_length_le (by omega)
      show bs ++ rest.take (limit - bs.length) = (bs ++ rest).take limit
      rw [List.take_append, hcut]
    · intro hnil
      have hdata : [] = bs ++ rest := hend.1 hnil
      rw [← hdata, List.take_nil]

/-- A reader that emits `data` is read to its end in finitely many reads. -/
theorem Emits.exists_finishes {r : ρ} {data : Bytes} (h : Emits r data) :
    ∃ ns, (∀ m ∈ ns, 0 < m) ∧ Finishes r ns 1 data := by
  -- every read that does not report the end comes closer to it
  suffices hrun : ∀ left (ns : List Nat), (∀ m ∈ ns, 0 < m) →
      (∀ x ∈ (reads ns r).1, ∃ b bs, x = .ok (b :: bs)) →
      data.length = (received (reads ns r).1).length + left →
      ∃ ns, (∀ m ∈ ns, 0 < m) ∧ Finishes r ns 1 data by
    exact hrun data.length [] nofun nofun (Nat.zero_add _).symm
  intro left
  induction left using Nat.strongRecOn with
  | ind left ih =>
    intro ns hns hdelivers hleft
    obtain ⟨bs, hread, hfront, hend⟩ := h ns 1 hns Nat.one_pos
    cases bs with
    | nil => exact ⟨ns, hns, hdelivers, hend.1 rfl, hread⟩
    | cons b bs =>
      have hle := hfront.length_le
      rw [List.length_append, List.length_cons] at hle
      have hlast : reads (ns ++ [1]) r = ((reads ns r).1 ++ [.ok (b :: bs)],
          (read 1 (reads ns r).2).2) := by
        rw [reads_append, reads_cons, hread]
        rfl
      refine ih (left - (bs.length + 1)) (by omega) (ns ++ [1]) ?_ ?_ ?_
      · intro m hm
        rcases List.mem_append.1 hm with hm | hm
        · exact hns m hm
        · rw [List.mem_singleton.1 hm]
          exact Nat.one_pos
      · intro x hx
        rw [hlast] at hx
        rcases List.mem_append.1 hx with hx | hx
        · exact hdelivers x hx
        · exact ⟨b, bs, List.mem_singleton.1 hx⟩
      · rw [hlast]
        simp only [received_append, received_cons, received_nil, deliveredBytes_ok,
          List.append_nil, List.length_append, List.length_cons]
        omega

/-! ### `read_to_end` as a run -/

theorem Finishes.map {f : ρ → σ} (hf : ReadHom f) {r : ρ} {ns : List Nat} {n : Nat} {data : Bytes} :
    Finishes (f r) ns n data ↔ Finishes r ns n data := by
  constructor
  · rintro ⟨hdelivers, hdata, hend⟩
    simp only [reads_map hf, hf.read_map] at hdelivers hdata hend
    exact ⟨hdelivers, hdata, hend⟩
  · rintro ⟨hdelivers, hdata, hend⟩
    refine ⟨?_, ?_, ?_⟩
    · simpa only [reads_map hf] using hdelivers
    · simpa only [reads_map hf] using hdata
    · simpa only [reads_map hf, hf.read_map] using hend

/-- The loop ends without an error, or with that of its first failing read. -/
theorem readToEndLoop_run [LawfulRead ε ρ] {fuel : Nat} (acc : Bytes) {r : ρ}
    (hfuel : avail r < fuel) :
    (∃ out, (readToEndLoop fuel acc r).1 = .ok out) ∨
      ∃ m e, Fails r (List.replicate m bufSize) bufSize e ∧
        (readToEndLoop fuel acc r).1 = .error e := by
  induction fuel generalizing acc r with
  | zero => omega
  | succ fuel ih =>
    have hle := LawfulRead.avail_le bufSize r
    rw [readToEndLoop]
    rcases hread : read bufSize r with ⟨e | _ | ⟨b, bs⟩, r'⟩
    · exact .inr ⟨0, e, ⟨List.forall_mem_nil _, congrArg Prod.fst hread⟩, rfl⟩
    · exact .inl ⟨acc, rfl⟩
    · rw [hread] at hle
      simp only [delivered_ok, List.length_cons] at hle
      rcases ih (acc ++ (b :: bs)) (r := r') (by omega) with hok | ⟨m, e, ⟨hdelivers, hend⟩, hloop⟩
      · exact .inl hok
      · refine .inr ⟨m + 1, e, ⟨fun x hx => ?_, ?_⟩, hloop⟩
        · rw [List.replicate_succ, reads_cons, hread] at hx
          rcases List.mem_cons.1 hx with rfl | hx
          · exact ⟨b, bs, rfl⟩
          · exact hdelivers x hx
        · rw [List.replicate_succ, reads_cons, hread]
          exact hend

/-- A run that fails is the one `read_to_end` makes. -/
theorem readToEndLoop_of_fails [LawfulRead ε ρ] {m fuel : Nat} {acc : Bytes} {r : ρ} {e : ε}
    (h : Fails r (List.replicate m bufSize) bufSize e) (hfuel : avail r < fuel) :
    (readToEndLoop fuel acc r).1 = .error e := by
  induction m generalizing acc r fuel with
  | zero =>
    obtain ⟨fuel, rfl⟩ : ∃ n, fuel = n + 1 := ⟨fuel - 1, by omega⟩
    have hread : (read bufSize r).1 = .error e := h.ends
    rw [readToEndLoop]
    rcases hraw : read bufSize r with ⟨e' | bs, r'⟩
    · rw [hraw] at hread
      exact hread
    · rw [hraw] at hread
      cases hread
  | succ m ih =>
    obtain ⟨fuel, rfl⟩ : ∃ n, fuel = n + 1 := ⟨fuel - 1, by omega⟩
    obtain ⟨hdelivers, hend⟩ := h
    rw [List.replicate_succ, reads_cons] at hdelivers hend
    obtain ⟨b, bs, hread⟩ := hdelivers _ List.mem_cons_self
    have hle := LawfulRead.avail_le bufSize r
    rw [hread, delivered_ok, List.length_cons] at hle
    have hrest : (readToEndLoop fuel (acc ++ (b :: bs)) (read bufSize r).2).1 = .error e :=
      ih ⟨fun x hx => hdelivers x (List.mem_cons_of_mem _ hx), hend⟩ (by omega)
    rw [readToEndLoop]
    rcases hraw : read bufSize r with ⟨e' | bs', r'⟩
    · rw [hraw] at hread
      cases hread
    · rw [hraw] at hread hrest
      obtain rfl := Except.ok.inj hread
      exact hrest

/-- `read_to_end` fails with what its first failing read answers. -/
theorem readToEnd_eq_error_iff [LawfulRead ε ρ] {r : ρ} {e : ε} :
    (readToEnd r).1 = .error e ↔ ∃ m, Fails r (List.replicate m bufSize) bufSize e := by
  constructor
  · intro h
    rcases readToEndLoop_run [] (Nat.lt_succ_self (avail r)) with ⟨out, hok⟩ | ⟨m, e', hfails, herr⟩
    · cases h.symm.trans hok
    · obtain rfl := Except.error.inj (h.symm.trans herr)
      exact ⟨m, hfails⟩
  · rintro ⟨m, hfails⟩
    exact readToEndLoop_of_fails hfails (Nat.lt_succ_self _)

/-- The loop that ends without an error has made a run to the end. -/
theorem finishes_of_readToEndLoop [LawfulRead ε ρ] {fuel : Nat} {acc out : Bytes} {r : ρ}
    (hfuel : avail r < fuel) (h : (readToEndLoop fuel acc r).1 = .ok out) :
    ∃ m data, out = acc ++ data ∧ Finishes r (List.replicate m bufSize) bufSize data := by
  induction fuel generalizing acc r with
  | zero => omega
  | succ fuel ih =>
    have hle := LawfulRead.avail_le bufSize r
    rw [readToEndLoop] at h
    rcases hread : read bufSize r with ⟨e | _ | ⟨b, bs⟩, r'⟩
    · rw [hread] at h
      cases h
    · rw [hread] at h
      obtain rfl := Except.ok.inj h
      exact ⟨0, [], (List.append_nil _).symm, List.forall_mem_nil _, rfl, congrArg Prod.fst hread⟩
    · rw [hread] at h hle
      simp only [delivered_ok, List.length_cons] at hle
      obtain ⟨m, data, rfl, hdelivers, hdata, hend⟩ := ih (r := r') (by omega) h
      refine ⟨m + 1, b :: bs ++ data, List.append_assoc .., ?_, ?_, ?_⟩
      · intro x hx
        rw [List.replicate_succ, reads_cons, hread] at hx
        rcases List.mem_cons.1 hx with rfl | hx
        · exact ⟨b, bs, rfl⟩
        · exact hdelivers x hx
      · rw [List.replicate_succ, reads_cons, hread, received_cons, deliveredBytes_ok, hdata]
      · rw [List.replicate_succ, reads_cons, hread]
        exact hend

/-- What `read_to_end` collects is the data of a run to the end. -/
theorem finishes_of_readToEnd [LawfulRead ε ρ] {r : ρ} {data : Bytes}
    (h : (readToEnd r).1 = .ok data) :
    ∃ m, Finishes r (List.replicate m bufSize) bufSize data := by
  obtain ⟨m, data', hdata, hfin⟩ := finishes_of_readToEndLoop (Nat.lt_succ_self _) h
  rw [List.nil_append] at hdata
  exact ⟨m, hdata ▸ hfin⟩

/-- What is emitted is what `read_to_end` collects. -/
theorem Emits.readToEnd_eq [LawfulRead ε ρ] {r : ρ} {data : Bytes} (h : Emits r data) :
    (readToEnd r).1 = .ok data := by
  have hbuf : 0 < bufSize := by decide
  have hpos : ∀ m, ∀ n ∈ List.replicate m bufSize, 0 < n := fun m n hn => by
    rw [List.eq_of_mem_replicate hn]
    exact hbuf
  cases hend : (readToEnd r).1 with
  | ok out =>
    obtain ⟨m, hfin⟩ := finishes_of_readToEnd hend
    rw [h.eq_of_finishes (hpos m) hbuf hfin]
  | error e =>
    obtain ⟨m, hfails⟩ := readToEnd_eq_error_iff.1 hend
    obtain ⟨bs, hread, -⟩ := h _ bufSize (hpos m) hbuf
    cases hfails.ends.symm.trans hread

/-- However `r` is read, a run that comes to its end has delivered what `read_to_end`
collects. -/
def EndsAlike (r : ρ) : Prop :=
  ∀ ns n data, (∀ m ∈ ns, 0 < m) → 0 < n → Finishes r ns n data → (readToEnd r).1 = .ok data

theorem Emits.endsAlike [LawfulRead ε ρ] {r : ρ} {data : Bytes} (h : Emits r data) :
    EndsAlike r := by
  intro ns n out hns hn hfin
  rw [h.eq_of_finishes hns hn hfin]
  exact h.readToEnd_eq

theorem EndsAlike.map {f : ρ → σ} (hf : ReadHom f) {r : ρ} : EndsAlike (f r) ↔ EndsAlike r := by
  unfold EndsAlike
  simp only [Finishes.map hf, readToEnd_map hf]

/-- What the runs to the end of such a reader deliver. -/
theorem EndsAlike.forall_finishes_iff [LawfulRead ε ρ] {r : ρ} (h : EndsAlike r)
    {P : Bytes → Prop} :
    (∀ ns n, (∀ m ∈ ns, 0 < m) → 0 < n → ∀ data, Finishes r ns n data → P data) ↔
      ∀ data, (readToEnd r).1 = .ok data → P data := by
  constructor
  · intro hall data hend
    obtain ⟨m, hfin⟩ := finishes_of_readToEnd hend
    refine hall _ _ (fun n hn => ?_) (by decide) data hfin
    rw [List.eq_of_mem_replicate hn]
    decide
  · intro hall ns n hns hn data hfin
    exact hall data (h ns n data hns hn hfin)

end Runs

/-- A window delivers its bytes. -/
theorem Window.drains : Drains (ε := ε) Window.rest fun _ => True where
  read_ok := by
    intro r n _ hn
    refine ⟨r.rest.take n, rfl, List.take_append_drop n r.rest, ?_, trivial⟩
    intro hnil
    rcases List.take_eq_nil_iff.1 hnil with h | h
    · omega
    · exact h

/-! ## The errors of a reader -/

/-- Every error of a reader of kind `ρ` satisfies `P`. -/
class RaisesOnly (P : ε → Prop) (ρ : Type) [Read ε ρ] : Prop where
  read_error : ∀ {n : Nat} {r : ρ} {e : ε}, (read n r).1 = .error e → P e

section Errors

variable {P : ε → Prop} [Read ε ρ]

theorem RaisesOnly.of_mem_reads [RaisesOnly P ρ] {ns : List Nat} {r : ρ} {e : ε}
    (h : .error e ∈ (reads ns r).1) : P e := by
  induction ns generalizing r with
  | nil => cases h
  | cons n ns ih =>
    rcases List.mem_cons.1 h with heq | h
    · exact RaisesOnly.read_error heq.symm
    · exact ih h

instance Take.raisesOnly [RaisesOnly P ρ] : RaisesOnly P (Take ρ) where
  read_error {n t e} h := by
    simp only [Read.read] at h
    split_ifs at h
    rcases hread : read (min n t.limit) t.inner with ⟨e' | bs, r⟩
    · rw [hread] at h
      obtain rfl := Except.error.inj h
      exact RaisesOnly.read_error (congrArg Prod.fst hread)
    · rw [hread] at h
      cases h

theorem readExactLoop_raises [RaisesOnly P ρ] {eof e : ε} (heof : P eof) {fuel n : Nat} {r : ρ}
    (h : (readExactLoop eof fuel n r).1 = .error e) : P e := by
  induction fuel generalizing n r with
  | zero =>
    cases n with
    | zero => cases h
    | succ n =>
      obtain rfl := Except.error.inj h
      exact heof
  | succ fuel ih =>
    cases n with
    | zero => cases h
    | succ n =>
      rw [readExactLoop] at h
      rcases hread : read (n + 1) r with ⟨e' | _ | ⟨b, bs⟩, r'⟩
      · rw [hread] at h
        obtain rfl := Except.error.inj h
        exact RaisesOnly.read_error (congrArg Prod.fst hread)
      · rw [hread] at h
        obtain rfl := Except.error.inj h
        exact heof
      · rw [hread] at h
        dsimp only at h
        rcases hrest : readExactLoop eof fuel (n - bs.length) r' with ⟨e' | rest, r''⟩
        · rw [hrest] at h
          obtain rfl := Except.error.inj h
          exact ih (congrArg Prod.fst hrest)
        · rw [hrest] at h
          cases h

theorem readExact_raises [RaisesOnly P ρ] {eof e : ε} (heof : P eof) {n : Nat} {r : ρ}
    (h : (readExact eof n r).1 = .error e) : P e :=
  readExactLoop_raises heof h

/-- A decoder whose own errors satisfy `P`, and which answers an error from below that does
with one that does. -/
structure Codec.RaisesOnly (P : ε → Prop) (K : Codec ε) : Prop where
  out : ∀ {s c e s'}, K.step s c = .out (.error e) s' → P e
  onEnd : ∀ {s c n onData onEnd onError e}, K.step s c = .pull n onData onEnd onError →
    onEnd.1 = .error e → P e
  onError : ∀ {s c n onData onEnd onError e e'}, K.step s c = .pull n onData onEnd onError →
    P e' → (onError e').1 = .error e → P e

theorem Pipe.callLoop_raises {K : Codec ε} (hK : K.RaisesOnly P) [RaisesOnly P ρ] {c : Call}
    {fuel : Nat} {p : Pipe K ρ} {e : ε} (h : (callLoop c fuel p).1 = .error e) : P e := by
  induction fuel generalizing p with
  | zero => cases h
  | succ fuel ih =>
    rw [callLoop] at h
    cases hstep : K.step p.state c with
    | out answer next =>
      rw [hstep] at h
      dsimp only at h
      subst h
      exact hK.out hstep
    | pull n onData onEnd onError =>
      rw [hstep] at h
      dsimp only at h
      rcases hread : read n p.inner with ⟨e' | _ | ⟨b, bs⟩, r⟩
      · rw [hread] at h
        exact hK.onError hstep (RaisesOnly.read_error (congrArg Prod.fst hread)) h
      · rw [hread] at h
        exact hK.onEnd hstep h
      · rw [hread] at h
        exact ih h

theorem Pipe.raisesOnly {K : Codec ε} (hK : K.RaisesOnly P) [RaisesOnly P ρ] :
    ZipForensic.RaisesOnly P (Pipe K ρ) where
  read_error h := callLoop_raises hK h

end Errors

/-- A cursor never fails. -/
instance Cursor.raisesOnly {P : ε → Prop} : RaisesOnly P (Cursor ε) where
  read_error h := by cases h

instance Window.raisesOnly {P : ε → Prop} : RaisesOnly P (Window ε) where
  read_error h := by cases h

end ZipForensic
