import Mathlib.Data.List.Basic

/-!
# Text writers

A writer takes text piece by piece and may give up at any point; what it took before
stays written. This file has the interface (`Write`), what every real writer obeys
(`LawfulWrite`), the loop that writes one line after the other, a writer of bounded room
(`Page`), and the way back from a text to its lines.

- `writeLines_ok`, `writeLines_error`: all the lines have arrived, or a front of them.
- `splitLines_terminated`: the lines of a text are the ones that were written, as long as
  none of them holds a newline itself.
-/

namespace ZipForensic

/-- A writer with states `ω` and errors `ε`. -/
class Write (ε : outParam Type) (ω : Type) where
  writeAll : List Char → ω → Except ε Unit × ω
  /-- The text that has arrived. -/
  arrived : ω → List Char

export Write (writeAll arrived)

/-- What every writer obeys: a text that was accepted has arrived, and a front of one that
was not. -/
class LawfulWrite (ε : outParam Type) (ω : Type) [Write ε ω] : Prop where
  arrived_ok : ∀ (text : List Char) (w : ω), (writeAll text w).1 = .ok () →
    arrived (writeAll text w).2 = arrived w ++ text
  arrived_error : ∀ (text : List Char) (w : ω) (e : ε), (writeAll text w).1 = .error e →
    ∃ front, front <+: text ∧ arrived (writeAll text w).2 = arrived w ++ front

def newline : Char := Char.ofNat 10

/-- A line with its end. -/
def terminated (line : String) : List Char := line.toList ++ [newline]

section Lines

variable {ε ω : Type} [Write ε ω]

/-- `writeln!`. -/
def writeln (line : String) (w : ω) : Except ε Unit × ω := writeAll (terminated line) w

/-- One line after the other, up to the first that is refused. -/
def writeLines : List String → ω → Except ε Unit × ω
  | [], w => (.ok (), w)
  | line :: lines, w =>
    match writeln line w with
    | (.error e, w) => (.error e, w)
    | (.ok (), w) => writeLines lines w

variable [LawfulWrite ε ω]

theorem writeLines_ok {lines : List String} {w : ω} (h : (writeLines lines w).1 = .ok ()) :
    arrived (writeLines lines w).2 = arrived w ++ lines.flatMap terminated := by
  induction lines generalizing w with
  | nil => simp [writeLines]
  | cons line lines ih =>
    have hline := LawfulWrite.arrived_ok (terminated line) w
    rw [writeLines, writeln] at h ⊢
    rcases hw : writeAll (terminated line) w with ⟨e | ⟨⟩, w'⟩
    · rw [hw] at h
      cases h
    · rw [hw] at h hline
      dsimp only at h ⊢
      rw [ih h, hline rfl, List.flatMap_cons, List.append_assoc]

theorem writeLines_error {lines : List String} {w : ω} {e : ε}
    (h : (writeLines lines w).1 = .error e) :
    ∃ front, front <+: lines.flatMap terminated ∧
      arrived (writeLines lines w).2 = arrived w ++ front := by
  induction lines generalizing w with
  | nil => cases h
  | cons line lines ih =>
    have hline := LawfulWrite.arrived_ok (terminated line) w
    have hcut := LawfulWrite.arrived_error (terminated line) w
    rw [writeLines, writeln] at h ⊢
    rcases hw : writeAll (terminated line) w with ⟨e' | ⟨⟩, w'⟩
    · rw [hw] at hcut
      obtain ⟨front, hfront, harrived⟩ := hcut e' rfl
      exact ⟨front, hfront.trans (List.prefix_append _ _), harrived⟩
    · rw [hw] at h hline
      obtain ⟨front, hfront, harrived⟩ := ih h
      refine ⟨terminated line ++ front, (List.prefix_append_right_inj _).2 hfront, ?_⟩
      dsimp only
      rw [harrived, hline rfl, List.append_assoc]

end Lines

/-! ## A bounded writer -/

/-- A page with room for so many more characters; what does not fit is cut. -/
structure Page (ε : Type) where
  text : List Char
  room : Nat
  full : ε
deriving DecidableEq

namespace Page

variable {ε : Type}

instance : Write ε (Page ε) where
  writeAll text p :=
    if text.length ≤ p.room then
      (.ok (), { p with text := p.text ++ text, room := p.room - text.length })
    else (.error p.full, { p with text := p.text ++ text.take p.room, room := 0 })
  arrived p := p.text

instance : LawfulWrite ε (Page ε) where
  arrived_ok text p h := by
    simp only [writeAll, arrived] at h ⊢
    split_ifs at h ⊢
    rfl
  arrived_error text p e h := by
    simp only [writeAll, arrived] at h ⊢
    split_ifs at h ⊢
    exact ⟨_, List.take_prefix p.room text, rfl⟩

end Page

/-! ## Back to the lines -/

/-- The lines of a text. -/
def splitLines (text : List Char) : List (List Char) := (text.splitOn newline).dropLast

theorem flatMap_terminated (lines : List String) :
    lines.flatMap terminated = [newline].intercalate (lines.map String.toList ++ [[]]) := by
  induction lines with
  | nil => rfl
  | cons line lines ih =>
    rw [List.flatMap_cons, ih, terminated]
    cases lines with
    | nil => simp [List.intercalate]
    | cons next lines => simp [List.intercalate]

theorem splitLines_terminated {lines : List String} (h : ∀ line ∈ lines, newline ∉ line.toList) :
    splitLines (lines.flatMap terminated) = lines.map String.toList := by
  rw [splitLines, flatMap_terminated, List.splitOn_intercalate, List.dropLast_concat]
  · intro l hl
    rcases List.mem_append.1 hl with hl | hl
    · obtain ⟨line, hline, rfl⟩ := List.mem_map.1 hl
      exact h line hline
    · rw [List.mem_singleton.1 hl]
      exact List.not_mem_nil
  · simp

end ZipForensic
