import ZipForensic.Core.EmptyReads

/-!
# Which AES entries end authenticated (archive.rs, codec.rs, crypto.rs)

Three readers stand on top of each other: the AES stream with its code, the decoder, and the
CRC check of `ZipFile`. Over a whole compressed stream the first read to report the end is the
decoder's first end, or its second if the CRC check has failed at the first; and what matters is
whether the decoder asked for input behind the last byte by then.

`authenticatedEnd_iff_heeded` puts the three together, for the entries of an archive. For a
decoder that fills its buffer first, `AesEntry.heededBy_filling_iff` says what that comes to.
-/

namespace ZipForensic

open AesReader (Authenticated)

variable {k : Crates}

namespace ZipFile

theorem verified_of_mem {τ : Type} [Read IoError τ] {f : ZipFile k τ} {ns : List Nat}
    (h : .ok [] ∈ (reads ns f.decoder).1) : (reads ns f).2.verified = true := by
  induction ns generalizing f with
  | nil => cases h
  | cons n ns ih =>
    rw [reads_cons] at h ⊢
    rcases List.mem_cons.1 h with hend | hlater
    · exact reads_verified (read_end hend.symm).1
    · exact ih (by rw [read_decoder]; exact hlater)

section Whole

variable {x : AesEntry} {m : CentralEntry} {f : ZipFile k (Window IoError)}
  {d : Decoder k (AesReader k (Window IoError))} {K : Codec IoError}
  {q : Pipe K (Probe IoError)} {contents : Bytes}
  (hdec : f.decoder = d.map EntryReader.aes) (hd : Follows x Decoder.input d q)
  (hq : Emits q contents)
include hdec hd hq

/-- Where the decoder ends it has delivered the contents. -/
theorem received_of_end {ns : List Nat} {n : Nat} (hns : ∀ m ∈ ns, 0 < m) (hn : 0 < n)
    (hend : (read n (reads ns f).2.decoder).1 = .ok []) :
    received (reads ns f.decoder).1 = contents := by
  rw [read_decoder_aes hdec] at hend
  obtain ⟨hsame, hprobe, -⟩ := hd.ends ns n hns hn hend
  obtain ⟨bs, hread, -, hall⟩ := hq ns n hns hn
  obtain rfl : bs = [] := Except.ok.inj (hread.symm.trans hprobe)
  rw [hdec, reads_map (Decoder.readHom_map readHom_aes), hsame]
  exact hall.1 rfl

/-- The CRC check does not show if there is none, or the contents have the recorded CRC-32. -/
theorem silent_of_crc (hgate : f.verifyCrc = false ∨ Pending m [] f)
    (hcrc : ¬ (f.verifyCrc = true ∧ k.crc32 contents ≠ m.crc32)) : f.Silent (0 < ·) := by
  rcases hgate with hnone | hpending
  · exact .inl (.inr hnone)
  · refine .inr ⟨fun ns n hns hn _ hend => ?_, m, [], hpending⟩
    rw [← reads_decoder] at hend
    rw [hpending.hasher, hpending.entry, List.nil_append, received_of_end hdec hd hq hns hn hend]
    by_contra hdiff
    exact hcrc ⟨hpending.verifyCrc, hdiff⟩

/-- An end that the decoder reports over the data alone shows: the first one, or the second if
the CRC check fails. -/
theorem end_mem (hgate : f.verifyCrc = false ∨ Pending m [] f) {ns : List Nat} {n : Nat}
    (hns : ∀ m ∈ ns, 0 < m) (hn : 0 < n)
    (hsame : (reads (ns ++ [n]) d).1 = (reads (ns ++ [n]) q).1)
    (hend : (read n (reads ns q).2).1 = .ok [])
    (hagain : f.verifyCrc = true ∧ k.crc32 contents ≠ m.crc32 → .ok [] ∈ (reads ns q).1) :
    .ok [] ∈ (reads (ns ++ [n]) f).1 := by
  have hdecoder : (reads (ns ++ [n]) f.decoder).1 = (reads (ns ++ [n]) q).1 := by
    rw [hdec, reads_map (Decoder.readHom_map readHom_aes)]
    exact hsame
  by_cases hcrc : f.verifyCrc = true ∧ k.crc32 contents ≠ m.crc32
  · rw [reads_append, reads_append, reads_cons, reads_cons, reads_nil, reads_nil] at hdecoder
    obtain ⟨hfront, hlast⟩ := List.append_inj' hdecoder rfl
    have hverified : (reads ns f).2.verified = true :=
      verified_of_mem (by rw [hfront]; exact hagain hcrc)
    rw [reads_append, reads_cons, (read_end (f := (reads ns f).2) ?_).2 hverified]
    · simp
    · rw [reads_decoder]
      exact (List.cons.inj hlast).1.trans hend
  · have hpos : ∀ m ∈ ns ++ [n], 0 < m :=
      List.forall_mem_append.2 ⟨hns, List.forall_mem_singleton.2 hn⟩
    rw [((silent_of_crc hdec hd hq hgate hcrc).reads hpos).1, hdecoder, reads_append, reads_cons,
      hend]
    simp

/-- Over a whole stream, the entry ends authenticated if the decoder over the data alone never
reports an end that shows before it asks for more. -/
theorem authenticatedEnd_iff_unasked (hgate : f.verifyCrc = false ∨ Pending m [] f) :
    f.AuthenticatedEnd x ↔ ¬ q.EndsUnasked (f.verifyCrc = true ∧ k.crc32 contents ≠ m.crc32) := by
  constructor
  · rintro hauth ⟨ns, n, hns, hn, hagain, hend, hnot⟩
    have hrun : (reads (ns ++ [n]) q).2.inner.asked = false := by
      rw [reads_append]
      exact hnot
    have hmem := end_mem hdec hd hq hgate hns hn (hd.unasked _ hrun).1 hend hagain
    have hpos : ∀ m ∈ ns ++ [n], 0 < m :=
      List.forall_mem_append.2 ⟨hns, List.forall_mem_singleton.2 hn⟩
    refine not_authenticatedEnd_of_mem hdec hpos hmem (fun ms _ hfront => ?_) hauth
    -- what is asked for stays asked for
    obtain ⟨ls, hls⟩ := hfront
    rw [← hls, reads_append] at hrun
    exact (hd.unasked ms (Pipe.not_asked_of_reads hrun)).2
  · intro hnone ns n hns hn hfirst hend
    have hread := decoder_read_end hend
    have hall := received_of_end hdec hd hq hns hn hread
    rw [read_decoder_aes hdec] at hread
    obtain ⟨hsame, hprobe, hauth⟩ := hd.ends ns n hns hn hread
    refine ⟨(read n (reads ns d).2).2.input, ?_, ?_⟩
    · rw [read_decoder, read_decoder_aes hdec, Decoder.input_map]
    · refine hauth.resolve_right fun hnot => hnone ⟨ns, n, hns, hn, ?_, hprobe, hnot⟩
      rintro ⟨hverify, hcrc⟩
      have hpending := hgate.resolve_left (by rw [hverify]; nofun)
      by_contra hno
      -- at its first end, the decoder fails the CRC check
      have hdecoder : (reads ns f.decoder).1 = (reads ns q).1 := by
        rw [hdec, reads_map (Decoder.readHom_map readHom_aes)]
        exact hsame
      have hquiet : Except.ok [] ∉ (reads ns f.decoder).1 := by
        rw [hdecoder]
        exact hno
      obtain ⟨-, hfed⟩ := hpending.reads hquiet
      have hgated := hfed.read_end (decoder_read_end hend)
      rw [hend, List.nil_append, hall, if_neg hcrc] at hgated
      cases hgated

end Whole

end ZipFile

/-- **Authenticated ends**: for which entries the first read to report the end does so over an
authenticated stream. -/
theorem authenticatedEnd_iff_heeded (specs : FrameCodecs k) {a : ZipArchive} {m : CentralEntry}
    {info : AesInfo} {password : Bytes} {f : ZipFile k (Take Source)} (haes : m.aes = some info)
    (hopen : a.DecryptOpens m password f) :
    f.AuthenticatedEnd (aesEntry a.reader.bytes m info password) ↔
      (aesEntry a.reader.bytes m info password).Heeded specs m.crc32 m.uncompressedSize
        (.fromU16 info.actualMethod) := by
  obtain ⟨d, dataStart, hnew, hstart⟩ := hopen.start_new haes
  rw [← ZipFile.authenticatedEnd_map readHom_window, hstart]
  have hdec : (ZipFile.start m dataStart (!info.isAe2) (d.map EntryReader.aes)).decoder =
      d.map EntryReader.aes := rfl
  cases Decoder.new_ends specs m.crc32 hnew with
  | authenticated hx ends => exact iff_of_true (ZipFile.authenticatedEnd hdec ends) hx
  | forged hx ends => exact iff_of_false (ZipFile.not_authenticatedEnd hdec ends) hx
  | follows spec whole hx ends =>
    have hgate : (ZipFile.start m dataStart (!info.isAe2) (d.map EntryReader.aes)).verifyCrc = false ∨
        ZipFile.Pending m [] (ZipFile.start m dataStart (!info.isAe2) (d.map EntryReader.aes)) := by
      cases info.isAe2 with
      | true => exact .inl rfl
      | false => exact .inr (ZipFile.pending_start m dataStart _)
    have hverify : (ZipFile.start m dataStart (!info.isAe2) (d.map EntryReader.aes)).verifyCrc = true ↔
        info.isAe2 = false := by
      rw [ZipFile.start, Bool.not_eq_true']
    rw [ZipFile.authenticatedEnd_iff_unasked hdec ends (spec.emits_probe whole) hgate, hverify]
    exact hx.symm

/-- For a decoder that fills an empty buffer first, the ciphertext has to be one stream and
no more. -/
theorem AesEntry.heededBy_filling_iff {x : AesEntry} {fmt : FrameFormat} {corruptError : IoError}
    {chunk : Nat} {contents : Bytes} (hparse : fmt.parse (x.plaintext k) = .complete contents)
    (hne : contents ≠ []) (crc32 : UInt32) :
    x.HeededBy k crc32 (InflateSpec.filling fmt corruptError chunk) ↔
      (x.Truncated ∨ x.Authentic k) ∧ fmt.EndsHere (x.plaintext k) := by
  have hstatus : (fmt.parse (x.plaintext k)).status = .complete := by
    rw [hparse]
    rfl
  constructor
  · intro h
    obtain ⟨hx, hasks⟩ := h.whole hstatus
    refine ⟨hx, ?_⟩
    by_contra hlong
    exact hasks ((FrameFormat.filling_endsUnasked_iff hparse hne _).2 hlong)
  · rintro ⟨hx, hexact⟩
    refine ⟨fun hearly => ?_, fun _ => ⟨hx, fun hunasked => ?_⟩⟩
    · cases hstatus.symm.trans hearly
    · exact (FrameFormat.filling_endsUnasked_iff hparse hne _).1 hunasked hexact

/-- A deflated member whose compressed data is one stream, with the right code. -/
theorem deflated_authenticatedEnd :
    ∃ a f, ZipArchive.new ⟨aesArchive 8 deflatedPayload, 0⟩ = .ok a ∧
      a.DecryptOpens (k := aesSample) (aesMember 8 deflatedPayload) [0x70, 0x77] f ∧
      f.AuthenticatedEnd (aesEntry a.reader.bytes (aesMember 8 deflatedPayload) ⟨1, 8, true⟩
        [0x70, 0x77]) := by
  obtain ⟨a, f, hnew, hbytes, hopen, -⟩ :=
    aesArchive_opens (by decide +kernel)
      (openedDecrypt_aesMember 8 deflatedPayload ⟨"m", .fromU16 99, 1, 0, 28, 3⟩ (by decide +kernel)
        (by decide) (by decide +kernel) (by decide +kernel) fun _ => rfl)
  have hparse : finalStoredBlock.parse ((aesSampleEntry 8 deflatedPayload).plaintext aesSample) =
      .complete [0x61, 0x62, 0x63] := by
    decide +kernel
  have hheeded : (aesSampleEntry 8 deflatedPayload).HeededBy aesSample 0 aesSampleCodecs.flate2 :=
    (AesEntry.heededBy_filling_iff hparse nofun 0).2 ⟨.inr (by decide +kernel), by decide +kernel⟩
  refine ⟨a, f, hnew, hopen, (authenticatedEnd_iff_heeded aesSampleCodecs rfl hopen).2 ?_⟩
  rw [hbytes]
  exact hheeded

/-- The forged member reads back in full, and no code is looked at. -/
theorem forged_not_authenticatedEnd :
    ∃ a f, ZipArchive.new ⟨aesArchive 8 forgedPayload, 0⟩ = .ok a ∧
      a.DecryptOpens (k := aesSample) (aesMember 8 forgedPayload) [0x70, 0x77] f ∧
      (reads [8, 8] f).1 = [.ok [0x61, 0x62, 0x63], .ok []] ∧
      ¬ f.AuthenticatedEnd (aesEntry a.reader.bytes (aesMember 8 forgedPayload) ⟨1, 8, true⟩
        [0x70, 0x77]) := by
  obtain ⟨a, f, hnew, hbytes, hopen, hmap⟩ :=
    aesArchive_opens (by decide +kernel)
      (openedDecrypt_aesMember 8 forgedPayload ⟨"m", .fromU16 99, 1, 0, 29, 3⟩ (by decide +kernel)
        (by decide) (by decide +kernel) (by decide +kernel) fun _ => rfl)
  refine ⟨a, f, hnew, hopen, ?_, ?_⟩
  · rw [reads_view, hmap]
    decide +kernel
  · rw [← ZipFile.authenticatedEnd_map readHom_window, hmap]
    intro h
    obtain ⟨r, hinput, hr⟩ := h [8] 8 (by decide) (by decide) (by decide +kernel) (by decide +kernel)
    have hlooked : EntryReader.looked (read 8 (reads [8] (aesSampleFile 8 forgedPayload
        fun r => .deflate ⟨aesSample.flate2.init, r⟩)).2).2.decoder.input = false := by
      decide +kernel
    rw [hinput] at hlooked
    rw [EntryReader.looked, hr.done] at hlooked
    cases hlooked

end ZipForensic
