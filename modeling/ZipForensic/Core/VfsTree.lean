import ZipForensic.Core.Vfs
import ZipForensic.Path.Components
import ZipForensic.Tree.PathTable

/-!
# What the directory tree is (vfs.rs `build_tree`)

The abstract model of the loop: every entry *mentions* the nonempty prefixes of
its path, in order, the last of them as its own place (`mentionsOf`). After any
list of mentions the tree is determined by

- the table of the paths mentioned so far (`PathTable`),
- `madeBy`: the first mention of a path, which fixes the node's kind and size,
- `backing`: the first entry whose own path it is, which fixes the rest.

`Represents` says that the loop state — node vector, path map and children
lists — is that tree, and `exists_represents` that it stays so for every list of
entries. What the tree made of a list of entries is can then be read off that list
(`mentioned_mentions`, `madeBy_mentions`, `backing_mentions`).
-/

namespace ZipForensic

/-! ## Names and joined paths -/

/-- What `components` lets through. -/
def NormalComponent (c : String) : Prop := c ≠ "" ∧ '/' ∉ c.toList

theorem normalComponent_of_mem {raw c : String} (h : c ∈ components raw) : NormalComponent c := by
  rw [components, List.mem_filter, List.mem_map] at h
  obtain ⟨⟨cs, hcs, rfl⟩, hne⟩ := h
  refine ⟨(of_decide_eq_true hne).1, ?_⟩
  rw [String.toList_ofList]
  exact not_mem_of_mem_splitOnP rfl hcs

theorem nameBytes_injective {c d : String} (h : nameBytes c = nameBytes d) : c = d :=
  String.toByteArray_inj.1 (ByteArray.ext (Array.toList_inj.1 h))

/-- The key of a path in `by_path`. -/
def joinPath (p : List String) : String := "/".intercalate p

theorem toList_joinPath (p : List String) :
    (joinPath p).toList = ['/'].intercalate (p.map String.toList) := by
  rw [joinPath, String.toList_intercalate]
  rfl

theorem joinPath_injective {p q : List String} (hp : ∀ c ∈ p, NormalComponent c)
    (hq : ∀ c ∈ q, NormalComponent c) (h : joinPath p = joinPath q) : p = q := by
  have hnormal : ∀ {r : List String}, (∀ c ∈ r, NormalComponent c) →
      ∀ cs ∈ r.map String.toList, cs ≠ [] ∧ '/' ∉ cs := by
    intro r hr cs hcs
    obtain ⟨c, hc, rfl⟩ := List.mem_map.1 hcs
    refine ⟨fun hnil => (hr c hc).1 ?_, (hr c hc).2⟩
    rwa [String.toList_eq_nil_iff] at hnil
  have hchars := intercalate_injective (hnormal hp) (hnormal hq)
    (by rw [← toList_joinPath, ← toList_joinPath, h])
  exact List.map_injective_iff.2 (fun _ _ hcd => String.toList_inj.1 hcd) hchars

/-- One more component on the joined path, as the loop does it. -/
theorem joinPath_append {p : List String} (hp : ∀ c ∈ p, NormalComponent c) (c : String) :
    (if joinPath p = "" then joinPath p else (joinPath p).push '/') ++ c = joinPath (p ++ [c]) := by
  by_cases hnil : p = []
  · subst hnil
    simp [joinPath]
  · have hne : joinPath p ≠ "" := fun h =>
      hnil (joinPath_injective hp (fun _ h => absurd h List.not_mem_nil) (h.trans rfl))
    rw [if_neg hne, joinPath, joinPath,
      String.intercalate_append_of_ne_nil hnil (List.cons_ne_nil c []), String.intercalate_singleton,
      ← String.append_singleton]
    rfl

/-! ## Mentions -/

/-- A path that an entry's name mentions, with the entry where it is its own path. -/
structure Mention where
  path : List String
  entry : Option EntryLayout

/-- The paths mentioned so far, in the order of their first mention. -/
def notePath (seen : List (List String)) (p : List String) : List (List String) :=
  if p ∈ seen then seen else seen ++ [p]

/-- What the remaining components of an entry's name mention below `p`. -/
def mentionsFrom (e : EntryLayout) : List String → List String → List Mention
  | _, [] => []
  | p, c :: rest =>
    ⟨p ++ [c], if rest = [] then some e else none⟩ :: mentionsFrom e (p ++ [c]) rest

def mentionsOf (e : EntryLayout) : List Mention := mentionsFrom e [] e.comps

/-- The entry at whose own place a path was first mentioned. -/
def madeBy (E : List Mention) (p : List String) : Option EntryLayout :=
  (E.find? fun m => decide (m.path = p)).bind Mention.entry

/-- The first entry whose own path is `p`. -/
def backing (E : List Mention) (p : List String) : Option EntryLayout :=
  E.findSome? fun m => if m.path = p then m.entry else none

def Mentioned (E : List Mention) (p : List String) : Prop := ∃ m ∈ E, m.path = p

theorem mentioned_append {E : List Mention} {m : Mention} {p : List String} :
    Mentioned (E ++ [m]) p ↔ Mentioned E p ∨ m.path = p := by
  simp only [Mentioned, List.mem_append, List.mem_singleton]
  constructor
  · rintro ⟨m', hm' | rfl, hp⟩
    · exact .inl ⟨m', hm', hp⟩
    · exact .inr hp
  · rintro (⟨m', hm', hp⟩ | hp)
    · exact ⟨m', .inl hm', hp⟩
    · exact ⟨m, .inr rfl, hp⟩

/-- Only the first mention of a path counts. -/
theorem madeBy_append (E : List Mention) (m : Mention) (p : List String) :
    Mentioned E p → madeBy (E ++ [m]) p = madeBy E p := by
  rintro ⟨m', hm', hp⟩
  have hsome : (E.find? fun m => decide (m.path = p)).isSome :=
    List.find?_isSome.2 ⟨m', hm', by simp [hp]⟩
  rw [madeBy, madeBy, List.find?_append, Option.or_of_isSome hsome]

theorem find?_of_not_mentioned {E : List Mention} {p : List String} (h : ¬ Mentioned E p) :
    (E.find? fun m => decide (m.path = p)) = none :=
  List.find?_eq_none.2 fun m hm hp => h ⟨m, hm, of_decide_eq_true hp⟩

theorem madeBy_append_new {E : List Mention} {p : List String} (h : ¬ Mentioned E p)
    (m : Mention) : madeBy (E ++ [m]) p = if m.path = p then m.entry else none := by
  rw [madeBy, List.find?_append, find?_of_not_mentioned h, Option.none_or]
  by_cases hm : m.path = p <;> simp [hm]

theorem madeBy_append_of_ne (E : List Mention) {m : Mention} {p : List String} (h : m.path ≠ p) :
    madeBy (E ++ [m]) p = madeBy E p := by
  by_cases hp : Mentioned E p
  · exact madeBy_append E m p hp
  · rw [madeBy_append_new hp, if_neg h, madeBy, find?_of_not_mentioned hp, Option.bind_none]

theorem backing_append (E : List Mention) (m : Mention) (p : List String) :
    backing (E ++ [m]) p = (backing E p).or (if m.path = p then m.entry else none) := by
  rw [backing, List.findSome?_append, List.findSome?_singleton]
  rfl

theorem backing_append_of_ne (E : List Mention) {m : Mention} {p : List String} (h : m.path ≠ p) :
    backing (E ++ [m]) p = backing E p := by
  rw [backing_append, if_neg h, Option.or_none]

theorem backing_of_not_mentioned {E : List Mention} {p : List String} (h : ¬ Mentioned E p) :
    backing E p = none :=
  List.findSome?_eq_none_iff.2 fun m hm => if_neg fun hp => h ⟨m, hm, hp⟩

/-! ## The tree after a list of mentions -/

/-- The node at the path `p`. -/
def nodeAt (E : List Mention) (T : PathTable String) (p : List String) : Node :=
  { entryIdx := (backing E p).map EntryLayout.index
    name := (p.getLast?.map nameBytes).getD []
    kind := if (madeBy E p).any (fun e => !e.isDir) then .file else .dir
    size := ((madeBy E p).map fun e =>
      if e.isDir then 0 else e.central.uncompressedSize).getD 0
    modified := (backing E p).bind fun e => (extraTimes e.extra).1
    accessed := (backing E p).bind fun e => (extraTimes e.extra).2.1
    born := (backing E p).bind fun e => (extraTimes e.extra).2.2
    children := T.childIds p }

/-- The loop state is the tree over the paths `T` after the mentions `E`. -/
structure Represents (t : TreeBuild) (T : PathTable String) (E : List Mention) : Prop where
  nodes : ∀ i : Nat, t.nodes[i]? = T.paths[i]?.map (nodeAt E T)
  byPath : ∀ p, (∀ c ∈ p, NormalComponent c) → ∀ i : Nat,
    t.byPath.lookup (joinPath p) = some i ↔ T.paths[i]? = some p
  normal : ∀ p ∈ T.paths, ∀ c ∈ p, NormalComponent c
  mem_paths : ∀ p, p ∈ T.paths ↔ p = [] ∨ Mentioned E p

namespace Represents

variable {t : TreeBuild} {T : PathTable String} {E : List Mention}

theorem start : Represents .start .single [] where
  nodes i := by
    cases i with
    | zero => rfl
    | succ i => rfl
  byPath p hp i := by
    have hroot : joinPath p = "" ↔ p = [] := by
      constructor
      · exact fun h => joinPath_injective hp (fun _ hc => absurd hc List.not_mem_nil) (h.trans rfl)
      · rintro rfl
        rfl
    have hpath : (PathTable.single : PathTable String).paths[i]? = some p ↔ p = [] ∧ i = 0 := by
      cases i with
      | zero => simp [PathTable.single, eq_comm]
      | succ i => simp [PathTable.single]
    rw [hpath, ← hroot, TreeBuild.start, lookup_cons_eq]
    by_cases h : joinPath p = ""
    · simp [h, eq_comm]
    · simp [h]
  normal p hp c hc := by
    obtain rfl : p = [] := List.mem_singleton.1 hp
    exact absurd hc List.not_mem_nil
  mem_paths p := by
    simp [PathTable.single, Mentioned]

/-- A path in the table that is not the root's was mentioned. -/
theorem mentioned (h : Represents t T E) {p : List String} (hp : p ∈ T.paths) (hne : p ≠ []) :
    Mentioned E p :=
  ((h.mem_paths p).1 hp).resolve_left hne

theorem lookup_eq_none (h : Represents t T E) {p : List String} (hp : ∀ c ∈ p, NormalComponent c) :
    t.byPath.lookup (joinPath p) = none ↔ p ∉ T.paths := by
  constructor
  · intro hnone hmem
    obtain ⟨i, hi⟩ := List.getElem?_of_mem hmem
    rw [(h.byPath p hp i).2 hi] at hnone
    cases hnone
  · intro hmem
    cases hlookup : t.byPath.lookup (joinPath p) with
    | none => rfl
    | some i => exact absurd (PathTable.mem_of_getElem? ((h.byPath p hp i).1 hlookup)) hmem

theorem mem_paths_append (h : Represents t T E) {m : Mention} (hm : m.path ∈ T.paths)
    (hne : m.path ≠ []) (q : List String) : q ∈ T.paths ↔ q = [] ∨ Mentioned (E ++ [m]) q := by
  rw [mentioned_append, h.mem_paths q]
  constructor
  · rintro (hq | hq)
    · exact .inl hq
    · exact .inr (.inl hq)
  · rintro (hq | hq | rfl)
    · exact .inl hq
    · exact .inr hq
    · exact .inr (h.mentioned hm hne)

/-! ### A mention of a path that is there -/

/-- A path that is mentioned on the way keeps its node. -/
theorem imply (h : Represents t T E) {p : List String} (hp : p ∈ T.paths) (hne : p ≠ []) :
    Represents t T (E ++ [⟨p, none⟩]) where
  nodes i := by
    have hnode : ∀ q, nodeAt (E ++ [⟨p, none⟩]) T q = nodeAt E T q := by
      intro q
      have hback : backing (E ++ [⟨p, none⟩]) q = backing E q := by
        rw [backing_append, ite_self, Option.or_none]
      have hmade : madeBy (E ++ [⟨p, none⟩]) q = madeBy E q := by
        by_cases hq : p = q
        · exact madeBy_append E _ q (hq ▸ h.mentioned hp hne)
        · exact madeBy_append_of_ne E hq
      rw [nodeAt, hmade, hback, nodeAt]
    rw [h.nodes i, funext hnode]
  byPath := h.byPath
  normal := h.normal
  mem_paths := h.mem_paths_append hp hne

theorem attach_nodeAt {p : List String} (hp : Mentioned E p) (e : EntryLayout) :
    Node.attach e (nodeAt E T p) = nodeAt (E ++ [⟨p, some e⟩]) T p := by
  have hmade := madeBy_append E ⟨p, some e⟩ p hp
  have hback := backing_append E ⟨p, some e⟩ p
  rw [if_pos rfl] at hback
  rw [Node.attach, nodeAt, nodeAt, hmade, hback]
  cases backing E p <;> rfl

/-- An entry whose own path is there becomes its backing entry, if it is the first. -/
theorem attach (h : Represents t T E) {p : List String} {i : Nat} (hp : T.paths[i]? = some p)
    (hne : p ≠ []) (e : EntryLayout) :
    Represents { t with nodes := t.nodes.modify i (Node.attach e) } T (E ++ [⟨p, some e⟩]) where
  nodes j := by
    have hm := h.mentioned (PathTable.mem_of_getElem? hp) hne
    show (t.nodes.modify i (Node.attach e))[j]? = _
    rw [List.getElem?_modify, h.nodes j]
    by_cases hij : i = j
    · subst hij
      simp [hp, attach_nodeAt hm]
    · cases hj : T.paths[j]? with
      | none => simp
      | some q =>
        have hpq : p ≠ q := fun hpq => hij (PathTable.getElem?_inj hp (hpq ▸ hj))
        simp [hij, nodeAt, madeBy_append_of_ne E (m := ⟨p, some e⟩) hpq,
          backing_append_of_ne E (m := ⟨p, some e⟩) hpq]
  byPath := h.byPath
  normal := h.normal
  mem_paths := h.mem_paths_append (m := ⟨p, some e⟩) (PathTable.mem_of_getElem? hp) hne

/-! ### A mention of a new path -/

theorem nodes_eq (h : Represents t T E) : t.nodes = T.paths.map (nodeAt E T) :=
  List.ext_getElem? fun i => by rw [h.nodes i, List.getElem?_map]

theorem length_nodes (h : Represents t T E) : t.nodes.length = T.size := by
  rw [h.nodes_eq, List.length_map, PathTable.size]

theorem not_mentioned (h : Represents t T E) {p : List String} (hp : p ∉ T.paths) :
    ¬ Mentioned E p :=
  fun hm => hp ((h.mem_paths p).2 (.inr hm))

variable {p : List String} {i : Nat} {c : String}

/-- The new node has no children. -/
theorem childIds_new (hp : T.paths[i]? = some p) (hnew : p ++ [c] ∉ T.paths) :
    (T.push hp hnew).childIds (p ++ [c]) = [] := by
  rw [PathTable.childIds_push, if_neg (by simp), PathTable.childIds_eq_nil hnew]

theorem leafNode_eq (h : Represents t T E) (hp : T.paths[i]? = some p)
    (hnew : p ++ [c] ∉ T.paths) (e : EntryLayout) :
    nodeAt (E ++ [⟨p ++ [c], some e⟩]) (T.push hp hnew) (p ++ [c]) = leafNode e c := by
  have hm := h.not_mentioned hnew
  have hmade := madeBy_append_new hm ⟨p ++ [c], some e⟩
  have hback := backing_append E ⟨p ++ [c], some e⟩ (p ++ [c])
  rw [if_pos rfl] at hmade
  rw [if_pos rfl, backing_of_not_mentioned hm, Option.none_or] at hback
  rw [nodeAt, hmade, hback, childIds_new]
  cases hdir : e.isDir <;> simp [leafNode, hdir]

theorem impliedNode_eq (h : Represents t T E) (hp : T.paths[i]? = some p)
    (hnew : p ++ [c] ∉ T.paths) :
    nodeAt (E ++ [⟨p ++ [c], none⟩]) (T.push hp hnew) (p ++ [c]) = impliedNode c := by
  have hm := h.not_mentioned hnew
  have hmade := madeBy_append_new hm ⟨p ++ [c], none⟩
  have hback := backing_append E ⟨p ++ [c], none⟩ (p ++ [c])
  rw [if_pos rfl] at hmade
  rw [if_pos rfl, backing_of_not_mentioned hm, Option.none_or] at hback
  rw [nodeAt, hmade, hback, childIds_new]
  simp [impliedNode]

theorem normal_child (h : Represents t T E) (hp : T.paths[i]? = some p) (hc : NormalComponent c) :
    ∀ d ∈ p ++ [c], NormalComponent d := by
  intro d hd
  rcases List.mem_append.1 hd with hd | hd
  · exact h.normal p (PathTable.mem_of_getElem? hp) d hd
  · exact List.mem_singleton.1 hd ▸ hc

section Insert

variable (h : Represents t T E) (hp : T.paths[i]? = some p) (hnew : p ++ [c] ∉ T.paths)
  {o : Option EntryLayout}
include h hp hnew

/-- A new path below `p` shows in the node of `p` alone. -/
theorem nodeAt_push {j : Nat} {q : List String} (hq : T.paths[j]? = some q) :
    nodeAt (E ++ [⟨p ++ [c], o⟩]) (T.push hp hnew) q =
      if i = j then { nodeAt E T q with children := (nodeAt E T q).children ++ [t.nodes.length] }
      else nodeAt E T q := by
  have hqnew : p ++ [c] ≠ q := fun hq' => hnew (hq' ▸ PathTable.mem_of_getElem? hq)
  have hchildren := PathTable.childIds_push T hp hnew q
  by_cases hij : i = j
  · subst hij
    obtain rfl : q = p := Option.some.inj (hq.symm.trans hp)
    rw [if_pos rfl] at hchildren
    simp [nodeAt, madeBy_append_of_ne E (m := ⟨q ++ [c], o⟩) hqnew,
      backing_append_of_ne E (m := ⟨q ++ [c], o⟩) hqnew, hchildren, h.length_nodes]
  · have hqp : q ≠ p := fun hqp => hij (PathTable.getElem?_inj hp (hqp ▸ hq))
    rw [if_neg hqp] at hchildren
    simp [hij, nodeAt, madeBy_append_of_ne E (m := ⟨p ++ [c], o⟩) hqnew,
      backing_append_of_ne E (m := ⟨p ++ [c], o⟩) hqnew, hchildren]

theorem insert_nodes {node : Node}
    (hnode : nodeAt (E ++ [⟨p ++ [c], o⟩]) (T.push hp hnew) (p ++ [c]) = node) (j : Nat) :
    (t.insert i (joinPath (p ++ [c])) node).nodes[j]? =
      (T.push hp hnew).paths[j]?.map (nodeAt (E ++ [⟨p ++ [c], o⟩]) (T.push hp hnew)) := by
  have hi := PathTable.lt_size hp
  show (pushChild (t.nodes ++ [node]) i t.nodes.length)[j]? = (T.paths ++ [p ++ [c]])[j]?.map _
  rw [PathTable.getElem?_push, pushChild, List.getElem?_modify]
  by_cases hj : j = T.size
  · have hij : i ≠ j := by omega
    subst hj
    have hlast : (t.nodes ++ [node])[T.size]? = some node := by
      rw [← h.length_nodes, List.getElem?_concat_length]
    simp [hij, hlast, hnode]
  · have hold : (t.nodes ++ [node])[j]? = T.paths[j]?.map (nodeAt E T) := by
      rw [h.nodes_eq, ← List.getElem?_map]
      rcases Nat.lt_or_gt_of_ne hj with hlt | hgt
      · rw [List.getElem?_append_left (by rw [List.length_map]; exact hlt)]
      · rw [List.getElem?_eq_none, List.getElem?_eq_none]
        · rw [List.length_map]
          exact Nat.le_of_lt hgt
        · rw [List.length_append, List.length_map, List.length_singleton]
          exact hgt
    rw [hold, if_neg hj]
    cases hq : T.paths[j]? with
    | none => simp
    | some q =>
      exact congrArg some (nodeAt_push h hp hnew hq).symm

theorem insert_byPath (hc : NormalComponent c) (node : Node) {q : List String}
    (hq : ∀ d ∈ q, NormalComponent d) (j : Nat) :
    (t.insert i (joinPath (p ++ [c])) node).byPath.lookup (joinPath q) = some j ↔
      (T.push hp hnew).paths[j]? = some q := by
  have hpc := h.normal_child hp hc
  show ((joinPath (p ++ [c]), t.nodes.length) :: t.byPath).lookup _ = _ ↔
    (T.paths ++ [p ++ [c]])[j]? = _
  rw [lookup_cons_eq, PathTable.getElem?_push, h.length_nodes]
  by_cases hqp : q = p ++ [c]
  · rw [if_pos (congrArg joinPath hqp)]
    by_cases hj : j = T.size
    · simp [hj, hqp]
    · rw [if_neg hj]
      constructor
      · exact fun hsome => absurd (Option.some.inj hsome).symm hj
      · exact fun hmem => absurd (hqp ▸ PathTable.mem_of_getElem? hmem) hnew
  · rw [if_neg fun hjoin => hqp (joinPath_injective hq hpc hjoin), h.byPath q hq]
    by_cases hj : j = T.size
    · subst hj
      have hnone : T.paths[T.size]? = none := List.getElem?_eq_none (Nat.le_refl _)
      simp [hnone, Ne.symm hqp]
    · rw [if_neg hj]

end Insert

/-- A new path gets the next node, as the last child of its parent. -/
theorem insert (h : Represents t T E) (hp : T.paths[i]? = some p) (hc : NormalComponent c)
    (hnew : p ++ [c] ∉ T.paths) {o : Option EntryLayout} {node : Node}
    (hnode : nodeAt (E ++ [⟨p ++ [c], o⟩]) (T.push hp hnew) (p ++ [c]) = node) :
    Represents (t.insert i (joinPath (p ++ [c])) node) (T.push hp hnew)
      (E ++ [⟨p ++ [c], o⟩]) where
  nodes := insert_nodes h hp hnew hnode
  byPath q hq := insert_byPath h hp hnew hc node hq
  normal q hq := by
    rcases List.mem_append.1 hq with hq | hq
    · exact h.normal q hq
    · rw [List.mem_singleton.1 hq]
      exact h.normal_child hp hc
  mem_paths q := by
    show q ∈ T.paths ++ [p ++ [c]] ↔ _
    rw [List.mem_append, List.mem_singleton, h.mem_paths q, mentioned_append, or_assoc, @eq_comm _ q (p ++ [c])]

/-! ### The loops -/

/-- The loop over the components of one name, from the node of `p` on. -/
theorem insertComps (e : EntryLayout) (rest : List String) {t : TreeBuild} {T : PathTable String}
    {E : List Mention} (h : Represents t T E) {p : List String} {i : Nat}
    (hp : T.paths[i]? = some p) (hrest : ∀ c ∈ rest, NormalComponent c) :
    ∃ T', Represents (TreeBuild.insertComps e rest i (joinPath p) t) T'
      (E ++ mentionsFrom e p rest) ∧
      T'.paths = ((mentionsFrom e p rest).map Mention.path).foldl notePath T.paths := by
  induction rest generalizing t T E p i with
  | nil =>
    refine ⟨T, ?_, rfl⟩
    rw [mentionsFrom, List.append_nil]
    exact h
  | cons c rest ih =>
    have hpn := h.normal p (PathTable.mem_of_getElem? hp)
    obtain ⟨hc, hrest'⟩ := List.forall_mem_cons.1 hrest
    have hpc := h.normal_child hp hc
    rw [TreeBuild.insertComps, joinPath_append hpn c, mentionsFrom, List.map_cons,
      List.foldl_cons]
    by_cases hlast : rest = []
    · -- the entry itself
      subst hlast
      rw [if_pos rfl, if_pos rfl, mentionsFrom, List.map_nil, List.foldl_nil]
      cases hlookup : t.byPath.lookup (joinPath (p ++ [c])) with
      | some j =>
        have hj := (h.byPath _ hpc j).1 hlookup
        exact ⟨T, h.attach hj (by simp) e, (if_pos (PathTable.mem_of_getElem? hj)).symm⟩
      | none =>
        have hnew := (h.lookup_eq_none hpc).1 hlookup
        exact ⟨T.push hp hnew, h.insert hp hc hnew (h.leafNode_eq hp hnew e), (if_neg hnew).symm⟩
    · -- a directory on the way
      rw [if_neg hlast, if_neg hlast, List.append_cons E]
      cases hlookup : t.byPath.lookup (joinPath (p ++ [c])) with
      | some j =>
        have hj := (h.byPath _ hpc j).1 hlookup
        rw [notePath, if_pos (PathTable.mem_of_getElem? hj)]
        exact ih (h.imply (PathTable.mem_of_getElem? hj) (by simp)) hj hrest'
      | none =>
        have hnew := (h.lookup_eq_none hpc).1 hlookup
        have hsize : (T.push hp hnew).paths[t.nodes.length]? = some (p ++ [c]) := by
          show (T.paths ++ [p ++ [c]])[t.nodes.length]? = _
          rw [PathTable.getElem?_push, if_pos h.length_nodes]
        rw [notePath, if_neg hnew]
        exact ih (h.insert hp hc hnew (h.impliedNode_eq hp hnew)) hsize hrest'

/-- One entry. -/
theorem addEntry (h : Represents t T E) (e : EntryLayout) :
    ∃ T', Represents (t.addEntry e) T' (E ++ mentionsOf e) ∧
      T'.paths = ((mentionsOf e).map Mention.path).foldl notePath T.paths :=
  h.insertComps e e.comps T.root fun _ hc => normalComponent_of_mem hc

/-- The loop over the entries. -/
theorem foldl_addEntry (h : Represents t T E) (layouts : List EntryLayout) :
    ∃ T', Represents (layouts.foldl TreeBuild.addEntry t) T' (E ++ layouts.flatMap mentionsOf) ∧
      T'.paths = ((layouts.flatMap mentionsOf).map Mention.path).foldl notePath T.paths := by
  induction layouts generalizing t T E with
  | nil =>
    refine ⟨T, ?_, rfl⟩
    rw [List.flatMap_nil, List.append_nil]
    exact h
  | cons e layouts ih =>
    obtain ⟨T', h', hpaths⟩ := h.addEntry e
    rw [List.foldl_cons, List.flatMap_cons, ← List.append_assoc, List.map_append,
      List.foldl_append, ← hpaths]
    exact ih h'

end Represents

/-- What all entries of the central directory mention. -/
def mentions (layouts : List EntryLayout) : List Mention := layouts.flatMap mentionsOf

/-- `build_tree` computes the tree over what the entries mention, in that order. -/
theorem exists_represents_inOrder (layouts : List EntryLayout) :
    ∃ T, Represents (layouts.foldl TreeBuild.addEntry .start) T (mentions layouts) ∧
      T.paths = ((mentions layouts).map Mention.path).foldl notePath [[]] :=
  Represents.start.foldl_addEntry layouts

theorem exists_represents (layouts : List EntryLayout) :
    ∃ T, Represents (layouts.foldl TreeBuild.addEntry .start) T (mentions layouts) := by
  obtain ⟨T, h, -⟩ := exists_represents_inOrder layouts
  exact ⟨T, h⟩

/-! ## Mentions of the central directory -/

theorem mem_mentionsFrom {e : EntryLayout} {p rest : List String} {m : Mention} :
    m ∈ mentionsFrom e p rest ↔ ∃ r, r ≠ [] ∧ r <+: rest ∧
      m = ⟨p ++ r, if r = rest then some e else none⟩ := by
  induction rest generalizing p with
  | nil =>
    rw [mentionsFrom]
    constructor
    · exact fun h => absurd h List.not_mem_nil
    · rintro ⟨r, hne, hr, -⟩
      exact absurd (List.prefix_nil.1 hr) hne
  | cons c rest ih =>
    rw [mentionsFrom, List.mem_cons, ih]
    constructor
    · rintro (rfl | ⟨r, hne, hr, rfl⟩)
      · refine ⟨[c], by simp, by simp, ?_⟩
        by_cases hrest : rest = [] <;> simp [hrest, eq_comm]
      · exact ⟨c :: r, by simp, by simpa using hr, by simp⟩
    · rintro ⟨r, hne, hr, rfl⟩
      obtain ⟨d, r, rfl⟩ := List.exists_cons_of_ne_nil hne
      obtain ⟨rfl, hr'⟩ := List.cons_prefix_cons.1 hr
      by_cases hnil : r = []
      · subst hnil
        left
        by_cases hrest : rest = [] <;> simp [hrest, eq_comm]
      · exact .inr ⟨r, hnil, hr', by simp⟩

theorem mem_mentionsOf {e : EntryLayout} {m : Mention} :
    m ∈ mentionsOf e ↔ ∃ p, p ≠ [] ∧ p <+: e.comps ∧
      m = ⟨p, if p = e.comps then some e else none⟩ := by
  rw [mentionsOf, mem_mentionsFrom]
  simp only [List.nil_append]

theorem mentioned_mentions {layouts : List EntryLayout} {p : List String} :
    Mentioned (mentions layouts) p ↔ p ≠ [] ∧ ∃ e ∈ layouts, p <+: e.comps := by
  simp only [Mentioned, mentions, List.mem_flatMap, mem_mentionsOf]
  constructor
  · rintro ⟨m, ⟨e, he, q, hq, hpre, rfl⟩, rfl⟩
    exact ⟨hq, e, he, hpre⟩
  · rintro ⟨hne, e, he, hpre⟩
    exact ⟨_, ⟨e, he, p, hne, hpre, rfl⟩, rfl⟩

/-- The mention of `p` by an entry. -/
theorem find?_mentionsOf (e : EntryLayout) {p : List String} (hne : p ≠ []) :
    ((mentionsOf e).find? fun m => decide (m.path = p)) =
      if p <+: e.comps then some ⟨p, if p = e.comps then some e else none⟩ else none := by
  by_cases hpre : p <+: e.comps
  · rw [if_pos hpre]
    have hsome : ((mentionsOf e).find? fun m => decide (m.path = p)).isSome :=
      List.find?_isSome.2 ⟨_, mem_mentionsOf.2 ⟨p, hne, hpre, rfl⟩, by simp⟩
    obtain ⟨m, hm⟩ := Option.isSome_iff_exists.1 hsome
    obtain ⟨q, -, -, rfl⟩ := mem_mentionsOf.1 (List.mem_of_find?_eq_some hm)
    obtain rfl : q = p := by simpa using List.find?_some hm
    exact hm
  · rw [if_neg hpre]
    refine List.find?_eq_none.2 fun m hm hp => hpre ?_
    obtain ⟨q, -, hq, rfl⟩ := mem_mentionsOf.1 hm
    exact of_decide_eq_true hp ▸ hq

/-- A path is made by the first entry that passes through it, if it is its own. -/
theorem madeBy_mentions (layouts : List EntryLayout) {p : List String} (hne : p ≠ []) :
    madeBy (mentions layouts) p =
      (layouts.find? fun e => decide (p <+: e.comps)).bind fun e =>
        if p = e.comps then some e else none := by
  induction layouts with
  | nil => rfl
  | cons e layouts ih =>
    rw [madeBy, mentions] at ih ⊢
    rw [List.flatMap_cons, List.find?_append, find?_mentionsOf e hne, List.find?_cons]
    by_cases hpre : p <+: e.comps
    · simp [hpre]
    · simpa [hpre] using ih

/-- The backing entry of a path is the first one recorded there. -/
theorem backing_mentions (layouts : List EntryLayout) {p : List String} (hne : p ≠ []) :
    backing (mentions layouts) p = layouts.find? fun e => decide (e.comps = p) := by
  induction layouts with
  | nil => rfl
  | cons e layouts ih =>
    have hone : ((mentionsOf e).findSome? fun m => if m.path = p then m.entry else none) =
        if e.comps = p then some e else none := by
      by_cases hp : e.comps = p
      · subst hp
        have hmem : (⟨e.comps, some e⟩ : Mention) ∈ mentionsOf e :=
          mem_mentionsOf.2 ⟨e.comps, hne, List.prefix_refl _, by rw [if_pos rfl]⟩
        cases hfind : (mentionsOf e).findSome? fun m => if m.path = e.comps then m.entry else none with
        | none => simpa using List.findSome?_eq_none_iff.1 hfind _ hmem
        | some f =>
          obtain ⟨m, hm, hf⟩ := List.exists_of_findSome?_eq_some hfind
          obtain ⟨q, -, -, rfl⟩ := mem_mentionsOf.1 hm
          simp only at hf
          split_ifs at hf with hq
          rw [if_pos rfl, ← hf]
      · rw [if_neg hp]
        refine List.findSome?_eq_none_iff.2 fun m hm => ?_
        obtain ⟨q, -, -, rfl⟩ := mem_mentionsOf.1 hm
        by_cases hq : q = p
        · subst hq
          simp [Ne.symm hp]
        · simp [hq]
    rw [backing, mentions] at ih ⊢
    rw [List.flatMap_cons, List.findSome?_append, hone, ih, List.find?_cons]
    by_cases hp : e.comps = p <;> simp [hp]

end ZipForensic
