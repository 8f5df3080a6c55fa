import ZipForensic.Core.AesDecoders
import ZipForensic.Core.ContainerView
import ZipForensic.Stream.FillingCodec

/-!
# When the end of an AES entry is authenticated (crypto.rs, archive.rs)

`ZipFile` puts a CRC check on top of the decoder and the AES stream. The check can fail
once, and does not stop a caller that reads on; otherwise what the decoder does shows.

- `ZipFile.AuthenticatedEnd`: the first read to report the end does so over an authenticated
  stream. It does where the decoder always does (`ZipFile.authenticatedEnd`), and does not where
  the decoder never does (`ZipFile.not_authenticatedEnd`).
- `ZipArchive.DecryptOpens`: how an entry of an archive is opened with a password;
  `DecryptOpens.start_new` is its reader.
- `aesArchive`: an archive of one AES member, for several payloads.
-/

namespace ZipForensic

open AesReader (Authenticated)

variable {k : Crates}

/-! ## The entry's reader -/

namespace ZipFile

variable {τ : Type} [Read IoError τ]

/-- Whenever a read is the first to report the end, the authentication code was read and is
that of the whole ciphertext. -/
def AuthenticatedEnd (x : AesEntry) (f : ZipFile k τ) : Prop :=
  ∀ ns n, (∀ m ∈ ns, 0 < m) → 0 < n → .ok [] ∉ (reads ns f).1 →
    (read n (reads ns f).2).1 = .ok [] →
      ∃ r, (read n (reads ns f).2).2.decoder.input = .aes r ∧ Authenticated x r

theorem reads_decoder (ns : List Nat) (f : ZipFile k τ) :
    (reads ns f).2.decoder = (reads ns f.decoder).2 := by
  induction ns generalizing f with
  | nil => rfl
  | cons n ns ih =>
    show (reads ns (f.deliver (read n f.decoder)).2).2.decoder = _
    rw [ih, deliver_decoder]
    rfl

theorem read_decoder (n : Nat) (f : ZipFile k τ) : (read n f).2.decoder = (read n f.decoder).2 :=
  deliver_decoder f _

/-- The end is reported only where the decoder reports it. -/
theorem decoder_read_end {n : Nat} {f : ZipFile k τ} (h : (read n f).1 = .ok []) :
    (read n f.decoder).1 = .ok [] := by
  change (f.deliver (read n f.decoder)).1 = .ok [] at h
  rcases hread : read n f.decoder with ⟨e | _ | ⟨b, bs⟩, d⟩
  · rw [hread] at h
    cases h
  · rfl
  · rw [hread] at h
    cases h

/-- The CRC check is made once. -/
theorem read_end {n : Nat} {f : ZipFile k τ} (h : (read n f.decoder).1 = .ok []) :
    (read n f).2.verified = true ∧ (f.verified = true → (read n f).1 = .ok []) := by
  show (f.deliver (read n f.decoder)).2.verified = true ∧
    (f.verified = true → (f.deliver (read n f.decoder)).1 = .ok [])
  rcases hread : read n f.decoder with ⟨e | _ | ⟨b, bs⟩, d⟩
  · rw [hread] at h
    cases h
  · exact ⟨rfl, fun hver => if_pos hver⟩
  · rw [hread] at h
    cases h

theorem reads_verified {ns : List Nat} {f : ZipFile k τ} (h : f.verified = true) :
    (reads ns f).2.verified = true := by
  induction ns generalizing f with
  | nil => exact h
  | cons n ns ih =>
    refine ih ?_
    show (f.deliver (read n f.decoder)).2.verified = true
    rcases read n f.decoder with ⟨e | _ | ⟨b, bs⟩, d⟩
    · exact h
    · rfl
    · exact h

end ZipFile

/-! ## The entry's reader over the AES stream -/

theorem readHom_aes {τ : Type} [Read IoError τ] :
    ReadHom (EntryReader.aes : AesReader k τ → EntryReader k τ) :=
  ⟨fun _ _ => rfl, fun _ => rfl⟩

theorem Decoder.input_map {σ τ : Type} (g : σ → τ) (d : Decoder k σ) :
    (d.map g).input = g d.input := by
  cases d <;> rfl

namespace ZipFile

section OverAes

variable {x : AesEntry} {f : ZipFile k (Window IoError)}
  {d : Decoder k (AesReader k (Window IoError))} (hdec : f.decoder = d.map EntryReader.aes)
include hdec

theorem reads_decoder_aes (ns : List Nat) :
    (reads ns f).2.decoder = (reads ns d).2.map EntryReader.aes := by
  rw [reads_decoder, hdec, reads_map (Decoder.readHom_map readHom_aes)]

theorem read_decoder_aes (ns : List Nat) (n : Nat) :
    read n (reads ns f).2.decoder =
      ((read n (reads ns d).2).1, (read n (reads ns d).2).2.map EntryReader.aes) := by
  rw [reads_decoder_aes hdec, (Decoder.readHom_map readHom_aes).read_map]

/-- A decoder that no longer fails comes to the end, and so does the entry's reader: past a
failed CRC check, if need be. -/
theorem exists_end (h : Flows d) :
    ∃ ns, (∀ m ∈ ns, 0 < m) ∧ (read 1 (reads ns f).2).1 = .ok [] := by
  obtain ⟨ns, hns, hend⟩ := h.exists_end
  have hns' : ∀ m ∈ ns ++ [1], 0 < m := by
    intro m hm
    rcases List.mem_append.1 hm with hm | hm
    · exact hns m hm
    · rw [List.mem_singleton.1 hm]
      exact Nat.one_pos
  obtain ⟨ms, hms, hend'⟩ := (h.after hns').exists_end
  have hver : (reads (ns ++ [1]) f).2.verified = true := by
    rw [reads_append]
    exact (read_end (by rw [read_decoder_aes hdec, hend])).1
  refine ⟨(ns ++ [1]) ++ ms, fun m hm => (List.mem_append.1 hm).elim (hns' m) (hms m), ?_⟩
  refine (read_end ?_).2 ?_
  · rw [read_decoder_aes hdec, reads_append, hend']
  · rw [reads_append]
    exact reads_verified hver

theorem authenticatedEnd (h : EndsAuthenticated x Decoder.input d) : f.AuthenticatedEnd x := by
  intro ns n hns hn _ hend
  have hread := read_decoder_aes hdec ns n
  have hd := decoder_read_end hend
  rw [hread] at hd
  refine ⟨_, ?_, h ns n hns hn hd⟩
  rw [read_decoder, hread, Decoder.input_map]

/-- A run that reports the end, over a stream that is not authenticated on the way. -/
theorem not_authenticatedEnd_of_mem {ns : List Nat} (hns : ∀ m ∈ ns, 0 < m)
    (hmem : .ok [] ∈ (reads ns f).1)
    (hnever : ∀ ms, (∀ m ∈ ms, 0 < m) → ms <+: ns → ¬ Authenticated x (reads ms d).2.input) :
    ¬ f.AuthenticatedEnd x := by
  obtain ⟨ms, m, ls, rfl, hnot, hfirst⟩ := exists_first_end hmem
  obtain ⟨hms, hrest⟩ := List.forall_mem_append.1 hns
  have hm := hrest m List.mem_cons_self
  intro hauth
  obtain ⟨r, hinput, hr⟩ := hauth ms m hms hm hnot hfirst
  rw [read_decoder, read_decoder_aes hdec, Decoder.input_map] at hinput
  have hlast := hnever (ms ++ [m])
    (List.forall_mem_append.2 ⟨hms, List.forall_mem_singleton.2 hm⟩) ⟨ls, List.append_assoc ..⟩
  rw [reads_append] at hlast
  have heq : (read m (reads ms d).2).2.input = r := by injection hinput
  exact hlast (heq ▸ hr)

theorem not_authenticatedEnd (h : EndsForged x Decoder.input d) : ¬ f.AuthenticatedEnd x := by
  obtain ⟨hnever, ns, hns, hflow⟩ := h
  obtain ⟨ms, hms, hend⟩ :=
    exists_end (f := (reads ns f).2) (reads_decoder_aes hdec ns) hflow
  have hall : ∀ m ∈ ns ++ (ms ++ [1]), 0 < m := by
    simp only [List.mem_append, List.mem_singleton]
    rintro m (hm | hm | rfl)
    · exact hns m hm
    · exact hms m hm
    · exact Nat.one_pos
  have hmem : .ok [] ∈ (reads (ns ++ (ms ++ [1])) f).1 := by
    rw [reads_append, reads_append, reads_cons, hend]
    simp
  exact not_authenticatedEnd_of_mem hdec hall hmem fun ns' hns' _ => hnever ns' hns'

end OverAes

section Map

variable {τ τ' : Type} [Read IoError τ] [Read IoError τ'] {g : τ → τ'} (hg : ReadHom g)
  {x : AesEntry}
include hg

theorem authenticated_map (r : AesReader k τ) : Authenticated x (r.map g) ↔ Authenticated x r := by
  constructor
  · rintro ⟨hdone, hspent, hfed, hwhole, hdrained, hcode, hequal⟩
    exact ⟨hdone, hspent, hfed, hwhole, (hg.avail_map r.inner).symm.trans hdrained, hcode, hequal⟩
  · rintro ⟨hdone, hspent, hfed, hwhole, hdrained, hcode, hequal⟩
    exact ⟨hdone, hspent, hfed, hwhole, (hg.avail_map r.inner).trans hdrained, hcode, hequal⟩

/-- Whether an entry's end is authenticated does not depend on the kind of reader below. -/
theorem authenticatedEnd_map (f : ZipFile k τ) :
    (f.map g).AuthenticatedEnd x ↔ f.AuthenticatedEnd x := by
  have hstate : ∀ ns n, (read n (reads ns (f.map g)).2).2.decoder.input =
      (read n (reads ns f).2).2.decoder.input.map g := by
    intro ns n
    rw [reads_map (readHom_map hg), (readHom_map hg).read_map]
    exact Decoder.input_map _ _
  unfold AuthenticatedEnd
  refine forall_congr' fun ns => forall_congr' fun n => forall_congr' fun _ =>
    forall_congr' fun _ => ?_
  rw [hstate, reads_map (readHom_map hg), (readHom_map hg).read_map]
  refine forall_congr' fun _ => forall_congr' fun _ => ?_
  constructor
  · rintro ⟨r, hinput, hr⟩
    cases hr₀ : (read n (reads ns f).2).2.decoder.input with
    | aes r₀ =>
      rw [hr₀] at hinput
      obtain rfl : r₀.map g = r := by injection hinput
      exact ⟨r₀, rfl, (authenticated_map hg r₀).1 hr⟩
    | _ => rw [hr₀] at hinput; cases hinput
  · rintro ⟨r, hinput, hr⟩
    rw [hinput]
    exact ⟨r.map g, rfl, (authenticated_map hg r).2 hr⟩

end Map

end ZipFile

/-! ## Entries of an archive -/

/-- The bytes of an entry's data, as far as the file has them. -/
def entryData (F : Bytes) (m : CentralEntry) : Bytes :=
  match lfhAt F m.lfhOffset with
  | .ok (_, dataStart) => slice F dataStart m.compressedSize
  | .error _ => []

/-- The AES entry that `m` describes. -/
def aesEntry (F : Bytes) (m : CentralEntry) (info : AesInfo) (password : Bytes) : AesEntry where
  info
  compressedSize := m.compressedSize
  data := entryData F m
  password
  length_le := by
    unfold entryData
    split
    · exact List.length_take_le _ _
    · exact Nat.zero_le _

namespace ZipArchive

/-- The entry `m` was opened as `f`, by its index or by its name. -/
inductive DecryptOpens (a : ZipArchive) (m : CentralEntry) (password : Bytes)
    (f : ZipFile k (Take Source)) : Prop
  | byIndex (i : Nat) (entry : a.entries[i]? = some m)
      (opened : a.byIndexDecrypt i password = .ok f)
  | byName (name : String) (entry : a.entries.find? (fun e => e.name = name) = some m)
      (opened : a.byNameDecrypt name password = .ok f)

theorem DecryptOpens.openDecrypt {a : ZipArchive} {m : CentralEntry} {password : Bytes}
    {f : ZipFile k (Take Source)} (h : a.DecryptOpens m password f) :
    a.openDecrypt m password = .ok f := by
  cases h with
  | byIndex i entry opened =>
    rw [byIndexDecrypt, entry] at opened
    exact opened
  | byName name entry opened =>
    rw [byNameDecrypt, entry] at opened
    exact opened

end ZipArchive

theorem ZipFile.openEncrypted_aes {τ : Type} [Read IoError τ] {m : CentralEntry} {info : AesInfo}
    {password : Bytes} {dataStart : Nat} {window : τ} {r : AesReader k τ} (haes : m.aes = some info)
    (hnew : AesReader.new window password info m.compressedSize m.name = .ok r) :
    ZipFile.openEncrypted m password dataStart window =
      decode m dataStart (.fromU16 info.actualMethod) (!info.isAe2) (.aes r) := by
  rw [openEncrypted, haes]
  dsimp only
  rw [hnew]

/-- A reader is set up over a decoder. -/
theorem ZipFile.of_decode {τ : Type} [Read IoError τ] {m : CentralEntry} {dataStart : Nat}
    {method : CompressionMethod} {verifyCrc : Bool} {reader : EntryReader k τ} {f : ZipFile k τ}
    (h : decode m dataStart method verifyCrc reader = .ok f) :
    ∃ d, Decoder.new method m.uncompressedSize reader = .ok d ∧
      f = start m dataStart verifyCrc d := by
  unfold decode at h
  cases hnew : Decoder.new method m.uncompressedSize reader with
  | error e =>
    rw [hnew] at h
    cases h
  | ok d =>
    rw [hnew] at h
    exact ⟨d, rfl, (Except.ok.inj h).symm⟩

/-- The decoder is set up over AES or over ZipCrypto; only for AE-2 is the CRC not verified. -/
theorem ZipFile.reader_of_openEncrypted {τ : Type} [Read IoError τ] {m : CentralEntry}
    {password : Bytes} {dataStart : Nat} {window : τ} {f : ZipFile k τ}
    (h : openEncrypted m password dataStart window = .ok f) :
    (∃ aes r d, m.aes = some aes ∧
      AesReader.new window password aes m.compressedSize m.name = .ok r ∧
      Decoder.new (.fromU16 aes.actualMethod) m.uncompressedSize (.aes r) = .ok d ∧
      f = start m dataStart (!aes.isAe2) d) ∨
    ∃ r d, m.aes = none ∧ Decoder.new m.method m.uncompressedSize (.zipCrypto r) = .ok d ∧
      f = start m dataStart true d := by
  unfold openEncrypted at h
  cases haes : m.aes with
  | some aes =>
    rw [haes] at h
    dsimp only at h
    cases hnew : (AesReader.new window password aes m.compressedSize m.name :
      Except (ZipCoreError × τ) (AesReader k τ)) with
    | error e =>
      rw [hnew] at h
      cases h
    | ok r =>
      rw [hnew] at h
      obtain ⟨d, hd, rfl⟩ := of_decode h
      exact .inl ⟨aes, r, d, rfl, hnew, hd, rfl⟩
  | none =>
    rw [haes] at h
    dsimp only at h
    cases hnew : ZipCryptoReader.new window password
      (zipcryptoCheckByte m.flags m.crc32 m.lastModTime) m.name with
    | error e =>
      rw [hnew] at h
      cases h
    | ok r =>
      rw [hnew] at h
      obtain ⟨d, hd, rfl⟩ := of_decode h
      exact .inr ⟨r, d, rfl, hd, rfl⟩

/-- Opening an AES entry sets up its decoder over the AES stream. -/
theorem ZipFile.of_openEncrypted {m : CentralEntry} {info : AesInfo} {x : AesEntry}
    {dataStart : Nat} {f : ZipFile k (Window IoError)} (haes : m.aes = some info)
    (hinfo : x.info = info) (hsize : x.compressedSize = m.compressedSize)
    (h : ZipFile.openEncrypted m x.password dataStart ⟨x.data⟩ = .ok f) :
    ∃ d, Decoder.new (.fromU16 info.actualMethod) m.uncompressedSize (x.reader k m.name) = .ok d ∧
      f = start m dataStart (!info.isAe2) (d.map EntryReader.aes) := by
  rcases reader_of_openEncrypted h with ⟨info', r, d, haes', hnew, hd, rfl⟩ | ⟨-, -, hno, -, -⟩
  · obtain rfl : info = info' := Option.some.inj (haes.symm.trans haes')
    rw [← hinfo, ← hsize] at hnew
    obtain ⟨-, -, -, rfl⟩ := AesReader.new_eq_ok_iff.1 hnew
    obtain ⟨d₀, hd₀, rfl⟩ := Decoder.of_new_map readHom_aes hd
    exact ⟨d₀, hd₀, rfl⟩
  · rw [haes] at hno
    cases hno

section OpenedDecrypt

variable {F : Bytes} {m : CentralEntry} {info : AesInfo} {password : Bytes}
  {thisDisk cdStartDisk : Nat}

/-- Opening with a password, for an AES entry. -/
theorem openedDecrypt_aes {fields : HeaderFields} {dataStart : Nat} (haes : m.aes = some info)
    (hdisk : checkLocalDisk m thisDisk cdStartDisk = .ok ()) (hmask : m.flags &&& 0x2000 = 0)
    (hlfh : lfhAt F m.lfhOffset = .ok (fields, dataStart)) :
    (openedDecrypt F m thisDisk cdStartDisk password :
        Res ZipCoreError (ZipFile k (Window IoError))) =
      match ZipFile.openEncrypted m password dataStart ⟨(aesEntry F m info password).data⟩ with
      | .ok f => .ok f
      | .error (e, _) => .error (.error e) := by
  have hdata : (aesEntry F m info password).data = slice F dataStart m.compressedSize := by
    show entryData F m = _
    rw [entryData, hlfh]
  unfold openedDecrypt openedAt
  rw [hdisk, haes, hlfh, hdata]
  cases hset : (ZipFile.openEncrypted m password dataStart
    ⟨slice F dataStart m.compressedSize⟩ : Except _ (ZipFile k (Window IoError))) <;>
    simp only [Res.lift, Res.bind_ok, hmask, reduceCtorEq, and_false, false_and, if_false, ne_eq,
      not_true, hset]

theorem of_openedDecrypt {f : ZipFile k (Window IoError)} (haes : m.aes = some info)
    (h : openedDecrypt F m thisDisk cdStartDisk password = .ok f) :
    ∃ dataStart, ZipFile.openEncrypted m password dataStart
      ⟨(aesEntry F m info password).data⟩ = .ok f := by
  cases hdisk : checkLocalDisk m thisDisk cdStartDisk with
  | error e =>
    rw [openedDecrypt, hdisk] at h
    cases h
  | ok u =>
    by_cases hmask : m.flags &&& 0x2000 = 0
    · cases hlfh : lfhAt F m.lfhOffset with
      | error e =>
        unfold openedDecrypt openedAt at h
        rw [hdisk, haes, hlfh] at h
        simp only [Res.lift, Res.bind_ok, hmask, reduceCtorEq, and_false, false_and, if_false, ne_eq,
          not_true] at h
        cases h
      | ok fields =>
        rw [openedDecrypt_aes haes hdisk hmask hlfh] at h
        refine ⟨fields.2, ?_⟩
        cases hopen : (ZipFile.openEncrypted m password fields.2
          ⟨(aesEntry F m info password).data⟩ : Except _ (ZipFile k (Window IoError))) with
        | error e =>
          rw [hopen] at h
          cases h
        | ok g =>
          rw [hopen] at h
          injection h with h
          rw [h]
    · rw [openedDecrypt, hdisk, haes] at h
      simp only [Res.lift, Res.bind_ok, hmask, reduceCtorEq, and_false, if_false, ne_eq,
        not_false_eq_true, if_true] at h
      cases h

end OpenedDecrypt

/-- The reader of an AES entry is set up over its stream. -/
theorem ZipArchive.DecryptOpens.start_new {a : ZipArchive} {m : CentralEntry} {info : AesInfo}
    {password : Bytes} {f : ZipFile k (Take Source)} (haes : m.aes = some info)
    (h : a.DecryptOpens m password f) :
    ∃ d dataStart, Decoder.new (.fromU16 info.actualMethod) m.uncompressedSize
        ((aesEntry a.reader.bytes m info password).reader k m.name) = .ok d ∧
      f.map Take.window = ZipFile.start m dataStart (!info.isAe2) (d.map EntryReader.aes) := by
  have hview := view_openDecrypt (k := k) a m password
  rw [h.openDecrypt] at hview
  obtain ⟨dataStart, hset⟩ := of_openedDecrypt haes hview.symm
  obtain ⟨d, hnew, hstart⟩ := ZipFile.of_openEncrypted haes rfl rfl hset
  exact ⟨d, dataStart, hnew, hstart⟩

/-! ## An archive of one AES member -/

/-- The length field of a stored block. -/
def blockLen (inp : Bytes) : Nat := leNat (slice inp 1 2)

/-- The header of a final stored block. -/
def FinalHeader (inp : Bytes) : Prop :=
  slice inp 0 1 = [1] ∧ leNat (slice inp 3 2) = 0xFFFF - blockLen inp

instance (inp : Bytes) : Decidable (FinalHeader inp) := inferInstanceAs (Decidable (_ ∧ _))

theorem header_append {inp : Bytes} (bs : Bytes) (h : ¬ inp.length < 5) :
    blockLen (inp ++ bs) = blockLen inp ∧ (FinalHeader (inp ++ bs) ↔ FinalHeader inp) := by
  have hlen : blockLen (inp ++ bs) = blockLen inp := by
    rw [blockLen, blockLen, slice_append_left bs (by omega)]
  refine ⟨hlen, ?_⟩
  rw [FinalHeader, FinalHeader, hlen, slice_append_left bs (by omega),
    slice_append_left bs (by omega)]

/-- DEFLATE streams of one final stored block; every other stream counts as corrupt. -/
def parseFinalStored (inp : Bytes) : Frame :=
  if inp.length < 5 then .incomplete
  else if FinalHeader inp then
    if inp.length < 5 + blockLen inp then .incomplete
    else .complete (slice inp 5 (blockLen inp))
  else .corrupt

theorem parseFinalStored_complete {inp contents : Bytes}
    (h : parseFinalStored inp = .complete contents) :
    ¬ inp.length < 5 ∧ FinalHeader inp ∧ ¬ inp.length < 5 + blockLen inp ∧
      slice inp 5 (blockLen inp) = contents := by
  rw [parseFinalStored] at h
  split_ifs at h with hfixed hheader hbody
  exact ⟨hfixed, hheader, hbody, Frame.complete.inj h⟩

theorem parseFinalStored_append {inp contents : Bytes} (bs : Bytes)
    (h : parseFinalStored inp = .complete contents) :
    parseFinalStored (inp ++ bs) = .complete contents := by
  obtain ⟨hfixed, hheader, hbody, rfl⟩ := parseFinalStored_complete h
  obtain ⟨hlen, hiff⟩ := header_append bs hfixed
  rw [parseFinalStored, List.length_append, if_neg (by omega), if_pos (hiff.2 hheader), hlen,
    if_neg (by omega), slice_append_left bs (by omega)]

theorem parseFinalStored_corrupt_append {inp : Bytes} (bs : Bytes)
    (h : parseFinalStored inp = .corrupt) : parseFinalStored (inp ++ bs) = .corrupt := by
  rw [parseFinalStored] at h ⊢
  split_ifs at h with hfixed hheader
  obtain ⟨-, hiff⟩ := header_append bs hfixed
  rw [List.length_append, if_neg (by omega), if_neg (fun h => hheader (hiff.1 h))]

theorem length_le_of_parseFinalStored {inp contents : Bytes}
    (h : parseFinalStored inp = .complete contents) : contents.length ≤ inp.length := by
  obtain ⟨-, -, -, rfl⟩ := parseFinalStored_complete h
  rw [slice, List.length_take, List.length_drop]
  omega

def finalStoredBlock : FrameFormat where
  parse := parseFinalStored
  complete_append := parseFinalStored_append
  corrupt_append := parseFinalStored_corrupt_append
  length_le := length_le_of_parseFinalStored

/-- A decoder whose streams are all empty has them complete from the start. -/
def FrameSpec.empty (ε : Type) : FrameSpec (Codec.empty ε) where
  status _ := .complete
  Given _ _ _ := True
  lenient := true
  complete_append _ _ := rfl
  corrupt_append _ h := h
  given_init := trivial
  given_out _ _ := trivial
  given_data _ _ _ := trivial
  given_end _ _ := trivial
  given_error _ _ _ := trivial
  error_error _ := nofun
  read_complete _ _ _ h := by
    injection h with h _
    exact ⟨[], h.symm⟩
  read_incomplete _ := nofun
  read_corrupt _ := nofun
  read_end _ := nofun
  read_told _ := nofun

theorem Codec.empty_resumes {ε : Type} : (Codec.empty ε).Resumes where
  asks h := by cases h
  handsOn h := by cases h
  retries h := by cases h

def InflateSpec.empty : InflateSpec (Codec.empty IoError) where
  toFrameSpec := .empty IoError
  contents _ := []
  emits _ := by
    have hdrains : Drains (fun _ : Pipe (Codec.empty IoError) (Window IoError) => [])
        fun _ => True := ⟨fun _ _ => ⟨[], rfl, rfl, fun _ => rfl, trivial⟩⟩
    exact hdrains.emits trivial
  resumes := Codec.empty_resumes

def InflateSpec.filling (fmt : FrameFormat) (corruptError : IoError) (chunk : Nat) :
    InflateSpec (Codec.filling fmt corruptError chunk) where
  toFrameSpec := .filling fmt corruptError chunk
  contents inp := (fmt.parse inp).contents
  emits {inp} h := by
    change (fmt.parse inp).status = .complete at h
    cases hparse : fmt.parse inp with
    | complete contents => exact FrameFormat.filling_emits hparse
    | incomplete => rw [hparse] at h; cases h
    | corrupt => rw [hparse] at h; cases h
  resumes := Codec.filling_resumes fmt corruptError chunk

/-- The values of the crates on the archives below: the keys of the password `pw` under the
salt `1, …, 8`, the first keystream block, and three MACs. -/
def aesSample : Crates :=
  { Crates.plain with
    flate2 := .filling finalStoredBlock (.other "corrupt deflate stream") 32767
    pbkdf2HmacSha1 := fun _ _ _ _ =>
      [0xEC, 0xBC, 0x72, 0x6D, 0xBA, 0xD9, 0x1B, 0x71, 0x81, 0x6E, 0xAD, 0x91, 0xB1, 0x79, 0xA6, 0x00,
        0x0E, 0xA6, 0x93, 0x87, 0x11, 0x38, 0xE9, 0x84, 0xBF, 0x3F, 0xD0, 0x1E, 0xC0, 0xA5, 0x12, 0xCC,
        0x65, 0x09]
    aesCtr := fun _ i =>
      [0x1B, 0xDB, 0xD9, 0x31, 0x8C, 0x50, 0xC8, 0x16, 0xDA, 0x76, 0x09, 0xD6, 0x26, 0xCD, 0x48,
        0xD2].getD i 0
    hmacSha1 := fun _ message =>
      if message = [0x7A, 0xB9, 0xBA] then
        [0x88, 0xAA, 0x21, 0x49, 0x37, 0xD8, 0x9D, 0x99, 0x89, 0x11, 0x13, 0x07, 0x55, 0x5B, 0x40,
          0xCF, 0xB5, 0x3F, 0xE8, 0x70]
      else if message = [0x1A, 0xD8, 0xD9, 0xCD, 0x73, 0x31, 0xAA, 0x75] then
        [0x27, 0x9A, 0xE6, 0xCD, 0xC9, 0xA7, 0xB0, 0xAE, 0x61, 0xB4, 0x1C, 0x56, 0x63, 0xD3, 0xA6,
          0xBF, 0x79, 0xE0, 0x81, 0x6F]
      else
        [0x22, 0xC4, 0x20, 0xC5, 0x0D, 0xB5, 0x21, 0x56, 0x7F, 0x94, 0xE3, 0x5C, 0xF9, 0x35, 0xED,
          0x23, 0xA7, 0x69, 0x27, 0x92] }

def aesSampleCodecs : FrameCodecs aesSample where
  flate2 := .filling finalStoredBlock _ _
  deflate64 := .empty
  bzip2 := .empty _
  ruzstd := .empty _

/-- The data of an AES entry: salt, verifier, ciphertext and code. -/
def aesPayload (ciphertext code : Bytes) : Bytes :=
  [1, 2, 3, 4, 5, 6, 7, 8] ++ [0x65, 0x09] ++ ciphertext ++ code

/-- An archive of the AE-2 member `m`, with `method` below the encryption. -/
def aesArchive (method : UInt8) (payload : Bytes) : Bytes :=
  -- local header, name, extra field, data
  [0x50, 0x4B, 0x03, 0x04, 51, 0, 1, 0, 99, 0, 0, 0, 0, 0, 0, 0, 0, 0,
    UInt8.ofNat payload.length, 0, 0, 0, 3, 0, 0, 0, 1, 0, 11, 0] ++ [0x6D] ++
  [0x01, 0x99, 7, 0, 2, 0, 0x41, 0x45, 1, method, 0] ++ payload ++
  -- central header, name, extra field
  [0x50, 0x4B, 0x01, 0x02, 51, 0, 51, 0, 1, 0, 99, 0, 0, 0, 0, 0, 0, 0, 0, 0,
    UInt8.ofNat payload.length, 0, 0, 0, 3, 0, 0, 0, 1, 0, 11, 0, 0, 0, 0, 0, 0, 0, 0, 0, 0, 0,
    0, 0, 0, 0] ++ [0x6D] ++
  [0x01, 0x99, 7, 0, 2, 0, 0x41, 0x45, 1, method, 0] ++
  -- EOCD
  [0x50, 0x4B, 0x05, 0x06, 0, 0, 0, 0, 1, 0, 1, 0, 58, 0, 0, 0,
    UInt8.ofNat (42 + payload.length), 0, 0, 0, 0, 0]

/-- The member as parsed. -/
def aesMember (method : UInt8) (payload : Bytes) : CentralEntry :=
  { name := "m", method := .fromU16 99, flags := 1, crc32 := 0, compressedSize := payload.length,
    uncompressedSize := 3, lfhOffset := 0, lastModTime := 0,
    aes := some ⟨1, method.toNat, true⟩, diskStart := 0, extra := {} }

/-- What the parser makes of the archive. -/
def aesDirectory (method : UInt8) (payload : Bytes) : List CentralEntry × ArchiveSummary :=
  ([aesMember method payload],
    { fileLen := 122 + payload.length, centralDirOffset := 42 + payload.length, centralDirSize := 58,
      eocdEndOffset := 122 + payload.length, commentLen := 0, diskNumber := 0, cdStartDisk := 0,
      archiveSignatureLen := none })

/-- Deflated, with the right code. -/
def deflatedPayload : Bytes :=
  aesPayload [0x1A, 0xD8, 0xD9, 0xCD, 0x73, 0x31, 0xAA, 0x75]
    [0x27, 0x9A, 0xE6, 0xCD, 0xC9, 0xA7, 0xB0, 0xAE, 0x61, 0xB4]

/-- Deflated, with one byte behind the final block and a code of zeros. -/
def forgedPayload : Bytes :=
  aesPayload [0x1A, 0xD8, 0xD9, 0xCD, 0x73, 0x31, 0xAA, 0x75, 0xDA] [0, 0, 0, 0, 0, 0, 0, 0, 0, 0]

/-- The AES entry of the member. -/
def aesSampleEntry (method : UInt8) (payload : Bytes) : AesEntry :=
  aesEntry (aesArchive method payload) (aesMember method payload) ⟨1, method.toNat, true⟩ [0x70, 0x77]

/-- The member's reader, opened. -/
def aesSampleFile (method : UInt8) (payload : Bytes)
    (decoder : EntryReader aesSample (Window IoError) →
      Decoder aesSample (EntryReader aesSample (Window IoError))) :
    ZipFile aesSample (Window IoError) :=
  .start (aesMember method payload) 42 false
    (decoder (.aes ((aesSampleEntry method payload).reader aesSample "m")))

/-- A member whose verifier fits the password opens. -/
theorem openedDecrypt_aesMember (method : UInt8) (payload : Bytes) (fields : HeaderFields)
    {decoder : EntryReader aesSample (Window IoError) →
      Decoder aesSample (EntryReader aesSample (Window IoError))}
    (hlfh : lfhAt (aesArchive method payload) 0 = .ok (fields, 42))
    (hroom : AesReader.overhead 1 ≤ payload.length)
    (hdata : (aesSampleEntry method payload).start ≤ (aesSampleEntry method payload).data.length)
    (hpassword : slice ((aesSampleEntry method payload).derived aesSample) 32 2 =
      slice (aesSampleEntry method payload).data 8 2)
    (hdecoder : ∀ r : EntryReader aesSample (Window IoError),
      Decoder.new (.fromU16 method.toNat) 3 r = .ok (decoder r)) :
    openedDecrypt (aesArchive method payload) (aesMember method payload) 0 0 [0x70, 0x77] =
      .ok (aesSampleFile method payload decoder) := by
  have haes : AesReader.new ⟨(aesSampleEntry method payload).data⟩
      (aesSampleEntry method payload).password (aesSampleEntry method payload).info
        (aesSampleEntry method payload).compressedSize "m" =
      .ok ((aesSampleEntry method payload).reader aesSample "m") :=
    (AesReader.new_eq_ok_iff (x := aesSampleEntry method payload)).2 ⟨hroom, hdata, hpassword, rfl⟩
  have hinfo : (aesMember method payload).aes = some ⟨1, method.toNat, true⟩ := rfl
  have hset : ZipFile.openEncrypted (aesMember method payload) [0x70, 0x77] 42
      ⟨(aesSampleEntry method payload).data⟩ = .ok (aesSampleFile method payload decoder) := by
    have hdecode : ZipFile.decode (aesMember method payload) 42 (.fromU16 method.toNat) (!true)
        (.aes ((aesSampleEntry method payload).reader aesSample "m")) =
        .ok (aesSampleFile method payload decoder) := by
      unfold ZipFile.decode
      rw [show (aesMember method payload).uncompressedSize = 3 from rfl, hdecoder]
      rfl
    exact (ZipFile.openEncrypted_aes hinfo haes).trans hdecode
  have hmask : (aesMember method payload).flags &&& 0x2000 = 0 := by simp [aesMember]
  have hdisk : checkLocalDisk (aesMember method payload) 0 0 = .ok () := rfl
  refine (openedDecrypt_aes hinfo hdisk hmask hlfh).trans ?_
  rw [show aesEntry (aesArchive method payload) (aesMember method payload) _ [0x70, 0x77] =
    aesSampleEntry method payload from rfl, hset]

/-- It opens by its index, if the archive parses as expected. -/
theorem aesArchive_opens {method : UInt8} {payload : Bytes} {w : ZipFile aesSample (Window IoError)}
    (hdir : directoryOf (aesArchive method payload) = .ok (aesDirectory method payload))
    (hopen : openedDecrypt (aesArchive method payload) (aesMember method payload) 0 0
      [0x70, 0x77] = .ok w) :
    ∃ a f, ZipArchive.new ⟨aesArchive method payload, 0⟩ = .ok a ∧
      a.reader.bytes = aesArchive method payload ∧
      a.DecryptOpens (aesMember method payload) [0x70, 0x77] f ∧ f.map Take.window = w := by
  obtain ⟨pos, hnew⟩ := new_of_directoryOf hdir 0
  have hview := view_openDecrypt (k := aesSample)
    ⟨⟨aesArchive method payload, pos⟩, [aesMember method payload], (aesDirectory method payload).2⟩
    (aesMember method payload) [0x70, 0x77]
  obtain ⟨f, hf, hmap⟩ := exists_of_view (hview.trans hopen)
  exact ⟨_, f, hnew, rfl, .byIndex 0 rfl hf, hmap⟩

/-- The stream looked for its authentication code. -/
def EntryReader.looked {τ : Type} : EntryReader k τ → Bool
  | .aes r => r.done
  | _ => false

end ZipForensic
