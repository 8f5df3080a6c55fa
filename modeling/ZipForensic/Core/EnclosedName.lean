import ZipForensic.Core.Vfs
import ZipForensic.Path.Components

/-!
# The safe view of an entry name (archive.rs `enclosed_name`)

A path is the list of the components pushed onto it.

- `enclosedName_eq_some_iff`: a name is refused when it is empty, absolute, carries a
  NUL, a drive letter or a `..` component, or has no component to push; else its
  normal components are pushed in order.
-/

namespace ZipForensic

/-- `name.split(['/', '\\'])`. -/
def splitName (name : String) : List String :=
  (name.toList.splitOnP isSeparator).map String.ofList

/-- `u8::is_ascii_alphabetic`. -/
def isAsciiAlphabeticByte (b : UInt8) : Bool :=
  (0x61 ≤ b.toNat ∧ b.toNat ≤ 0x7A) ∨ (0x41 ≤ b.toNat ∧ b.toNat ≤ 0x5A)

/-- The drive-letter test on the first two bytes of a name. -/
def startsWithDrive : Bytes → Bool
  | b₀ :: b₁ :: _ => b₁ = 0x3A && isAsciiAlphabeticByte b₀
  | _ => false

/-- The loop over the components; `out` holds those pushed so far. -/
def pushComponents : List String → List String → Option (List String)
  | [], out => some out
  | comp :: rest, out =>
    if comp = "" ∨ comp = "." then pushComponents rest out
    else if comp = ".." then none
    else pushComponents rest (out ++ [comp])

/-- Compute a traversal-safe relative path from a ZIP entry name, treating both `/`
and `\` as separators. -/
def enclosedName (name : String) : Option (List String) :=
  if name = "" ∨ Char.ofNat 0 ∈ name.toList then none
  -- absolute / UNC-style
  else if name.toList.head?.any isSeparator then none
  -- drive-letter prefix (C:\...)
  else if startsWithDrive (nameBytes name) then none
  else do
    let out ← pushComponents (splitName name) []
    if out = [] then none else some out

/-- A safe relative path for extraction, or `none` if the entry name escapes the
destination. -/
def ZipFile.enclosedName (f : ZipFile k τ) : Option (List String) :=
  ZipForensic.enclosedName f.name

/-! ## The loop -/

theorem components_eq (name : String) :
    components name = (splitName name).filter fun c => c ≠ "" ∧ c ≠ "." := rfl

/-- The loop pushes the normal components, unless one of them goes up. -/
theorem pushComponents_eq (comps out : List String) :
    pushComponents comps out =
      if ".." ∈ comps then none
      else some (out ++ comps.filter fun c => c ≠ "" ∧ c ≠ ".") := by
  induction comps generalizing out with
  | nil => simp [pushComponents]
  | cons comp rest ih =>
    rw [pushComponents]
    by_cases hskip : comp = "" ∨ comp = "."
    · have hne : ".." ≠ comp := by
        rintro rfl
        exact absurd hskip (by decide)
      rw [if_pos hskip, ih, List.filter_cons_of_neg (by simpa [or_iff_not_imp_left] using hskip)]
      simp [hne]
    · rw [if_neg hskip]
      by_cases hup : comp = ".."
      · simp [hup]
      · rw [if_neg hup, ih, List.filter_cons_of_pos (by simpa [not_or] using hskip),
          List.append_assoc, List.singleton_append]
        simp [Ne.symm hup]

theorem enclosedName_eq_some_iff {name : String} {path : List String} :
    enclosedName name = some path ↔
      Char.ofNat 0 ∉ name.toList ∧ name.toList.head?.any isSeparator = false ∧
        startsWithDrive (nameBytes name) = false ∧ ".." ∉ splitName name ∧
        path = components name ∧ path ≠ [] := by
  unfold enclosedName
  by_cases hempty : name = ""
  · have hnone : components name = [] := by rw [hempty]; decide
    rw [if_pos (.inl hempty), hnone]
    simp +contextual
  by_cases hnul : Char.ofNat 0 ∈ name.toList
  · simp [hnul]
  rw [if_neg (not_or.2 ⟨hempty, hnul⟩)]
  cases hroot : name.toList.head?.any isSeparator with
  | true => simp
  | false =>
    cases hdrive : startsWithDrive (nameBytes name) with
    | true => simp
    | false =>
      rw [pushComponents_eq, List.nil_append, ← components_eq]
      by_cases hup : ".." ∈ splitName name
      · simp [hup]
      · rw [if_neg hup]
        have hbind : (if components name = [] then none else some (components name)) = some path ↔
            path = components name ∧ path ≠ [] := by
          by_cases hnil : components name = []
          · simp +contextual [hnil]
          · rw [if_neg hnil, Option.some.injEq]
            constructor
            · rintro rfl
              exact ⟨rfl, hnil⟩
            · exact fun h => h.1.symm
        simpa [hup, hnul] using hbind

end ZipForensic
