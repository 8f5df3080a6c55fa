import ZipForensic.Core.VfsNavigation
import ZipForensic.Machine.Cursors

/-!
# Readers of a mounted archive side by side (vfs.rs `read_at`)

The bytes of a node are served by position, and a mount is memoryless. So any number of
clients that read their files from front to back, taking turns in any order, also among
other calls on the mount, each get the decoded content of their file
(`zipVfs_clients`).
-/

namespace ZipForensic

variable {k : Crates}

/-- The bytes that an answer to `read_at` delivers. -/
def VfsAnswer.served : VfsAnswer → Bytes
  | .bytes (.ok bs) => bs
  | _ => []

/-- The id is that of a file node, and its entry decodes to `data`. -/
def ZipVfs.HoldsFile (k : Crates) (v : ZipVfs) (file : FileId) (data : Bytes) : Prop :=
  ∃ id node e, file = .opaqueId id ∧ v.nodes[id]? = some node ∧ node.kind = .file ∧
    node.entryIdx = some e ∧ decodedEntry k v.inner.archive e = .ok data

/-- A read of such a node. -/
theorem ZipVfs.HoldsFile.readAt {v : ZipVfs} {file : FileId} {data : Bytes}
    (h : v.HoldsFile k file data) (hmounted : Mounted k v.inner.archive v.nodes v) (off len : Nat) :
    (v.readAt k file .default off len).1 = .ok (contentAt data off len) := by
  obtain ⟨id, node, e, rfl, hnode, hkind, hentry, hdata⟩ := h
  rw [(hmounted.readAt _ _ off len).1, servedAt, ZipVfs.nodeOf_eq hnode]
  show servedFrom k v.inner.archive node off len = _
  rw [servedFrom, if_neg (not_not_intro hkind), hentry]
  dsimp only
  rw [hdata]
  rfl

/-- A read of such a node after any other calls. -/
theorem ZipVfs.HoldsFile.readAt_after {F : Bytes} {pos : Nat} {v : ZipVfs} {file : FileId}
    {data : Bytes} (h : v.HoldsFile k file data) (hv : ZipVfs.open ⟨F, pos⟩ = .ok v)
    (calls : List VfsCall) (off len : Nat) :
    ((runCalls (VfsCall.run k) calls v).2.readAt k file .default off len).1 =
      .ok (contentAt data off len) := by
  have hmounted : Mounted k v.inner.archive v.nodes v := mounted_of_open hv hv
  have hafter := (memoryless_vfs hmounted).runCalls_keeps calls hmounted
  rw [(hafter.readAt _ _ off len).1, ← h.readAt hmounted off len, (hmounted.readAt _ _ off len).1,
    servedAt, servedAt, ZipVfs.nodeOf, ZipVfs.nodeOf, hafter.nodes_eq]

/-- What a client asks for. -/
def VfsCall.readFile {ι : Type} (files : ι → FileId) (i : ι) (off len : Nat) : VfsCall :=
  .readAt (files i) .default off len

/-- **Clients side by side**: on a mounted archive, any number of clients that read files
where they stand, in any order and among any other calls, each have the front of their
file's decoded content that they asked for. -/
theorem zipVfs_clients {F : Bytes} {pos : Nat} {v : ZipVfs} (hv : ZipVfs.open ⟨F, pos⟩ = .ok v)
    {ι : Type} [DecidableEq ι] {files : ι → FileId} {data : ι → Bytes}
    (hfiles : ∀ i, v.HoldsFile k (files i) (data i)) (turns : List (Turn ι VfsCall)) :
    (Turn.run (VfsCall.run k) (VfsCall.readFile files) VfsAnswer.served turns
      (v, fun _ => [])).2 = fun i => (data i).take (Turn.requested i turns) := by
  have hmounted : Mounted k v.inner.archive v.nodes v := mounted_of_open hv hv
  have hserves : ∀ i off len, VfsAnswer.served ((VfsCall.readFile files i off len).run k v).1 =
      ((data i).drop off).take len := by
    intro i off len
    show VfsAnswer.served (.bytes (v.readAt k (files i) .default off len).1) = _
    rw [(hfiles i).readAt hmounted off len]
    rfl
  have hrun := (memoryless_vfs hmounted).run_turns hserves turns hmounted fun _ => 0
  simp only [Nat.zero_add] at hrun
  exact hrun.2

/-- Two clients of the same member: one reads all of it in two pieces, the other its front. -/
theorem storedVfs_clients :
    (Turn.run (VfsCall.run .plain) (VfsCall.readFile fun _ => .opaqueId 1) VfsAnswer.served
      [.read true 1, .call (.readDir ZipVfs.root), .read false 2, .read true 8]
      (storedVfs, fun _ : Bool => [])).2 =
        fun i => ([0x61, 0x62, 0x63] : Bytes).take (if i then 9 else 2) := by
  have hopen : ZipVfs.open ⟨storedArchive 3, 0⟩ = .ok storedVfs := by decide +kernel
  have hdata : decodedEntry .plain storedVfs.inner.archive 0 = .ok [0x61, 0x62, 0x63] := by
    decide +kernel
  have hfiles : ∀ _ : Bool, storedVfs.HoldsFile .plain (.opaqueId 1) [0x61, 0x62, 0x63] :=
    fun _ => ⟨1, _, 0, rfl, rfl, rfl, rfl, hdata⟩
  have hrun := zipVfs_clients hopen hfiles
    [.read true 1, .call (.readDir ZipVfs.root), .read false 2, .read true 8]
  refine hrun.trans (funext fun i => ?_)
  cases i <;> rfl

end ZipForensic
