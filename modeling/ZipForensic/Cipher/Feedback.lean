import Mathlib.Logic.Equiv.Defs

/-!
# Stream ciphers with plaintext feedback

A state masks one symbol and is updated with the plaintext symbol. Whoever decrypts sees
the plaintext one symbol at a time and goes through the same states
(`decrypt_encrypt`), wherever the message is cut (`decrypt_append`).
-/

namespace ZipForensic

universe u v

/-- A cipher over the symbols `α` with states `σ`. -/
structure FeedbackCipher (σ : Type v) (α : Type u) where
  /-- What a state makes of a plaintext symbol. -/
  mask : σ → Equiv.Perm α
  /-- The state behind a plaintext symbol. -/
  update : σ → α → σ

namespace FeedbackCipher

variable {σ : Type v} {α : Type u} (C : FeedbackCipher σ α)

/-- The ciphertext of a message, and the state behind it. -/
def encrypt : σ → List α → List α × σ
  | s, [] => ([], s)
  | s, p :: ps =>
    let (cs, s') := encrypt (C.update s p) ps
    (C.mask s p :: cs, s')

/-- The message of a ciphertext, and the state behind it. -/
def decrypt : σ → List α → List α × σ
  | s, [] => ([], s)
  | s, c :: cs =>
    let p := (C.mask s).symm c
    let (ps, s') := decrypt (C.update s p) cs
    (p :: ps, s')

theorem encrypt_cons (s : σ) (p : α) (ps : List α) :
    C.encrypt s (p :: ps) =
      (C.mask s p :: (C.encrypt (C.update s p) ps).1, (C.encrypt (C.update s p) ps).2) := rfl

theorem decrypt_cons (s : σ) (c : α) (cs : List α) :
    C.decrypt s (c :: cs) =
      ((C.mask s).symm c :: (C.decrypt (C.update s ((C.mask s).symm c)) cs).1,
        (C.decrypt (C.update s ((C.mask s).symm c)) cs).2) := rfl

@[simp] theorem length_encrypt (s : σ) (ps : List α) :
    (C.encrypt s ps).1.length = ps.length := by
  induction ps generalizing s with
  | nil => rfl
  | cons p ps ih => simp [encrypt_cons, ih]

@[simp] theorem length_decrypt (s : σ) (cs : List α) :
    (C.decrypt s cs).1.length = cs.length := by
  induction cs generalizing s with
  | nil => rfl
  | cons c cs ih => simp [decrypt_cons, ih]

/-- The states of the two sides stay the same. -/
theorem decrypt_encrypt (s : σ) (ps : List α) :
    C.decrypt s (C.encrypt s ps).1 = (ps, (C.encrypt s ps).2) := by
  induction ps generalizing s with
  | nil => rfl
  | cons p ps ih =>
    rw [encrypt_cons, decrypt_cons, Equiv.symm_apply_apply, ih]

theorem encrypt_append (s : σ) (ps qs : List α) :
    C.encrypt s (ps ++ qs) =
      ((C.encrypt s ps).1 ++ (C.encrypt (C.encrypt s ps).2 qs).1,
        (C.encrypt (C.encrypt s ps).2 qs).2) := by
  induction ps generalizing s with
  | nil => rfl
  | cons p ps ih =>
    rw [List.cons_append, encrypt_cons, encrypt_cons, ih]
    rfl

theorem decrypt_append (s : σ) (cs ds : List α) :
    C.decrypt s (cs ++ ds) =
      ((C.decrypt s cs).1 ++ (C.decrypt (C.decrypt s cs).2 ds).1,
        (C.decrypt (C.decrypt s cs).2 ds).2) := by
  induction cs generalizing s with
  | nil => rfl
  | cons c cs ih =>
    rw [List.cons_append, decrypt_cons, decrypt_cons, ih]
    rfl

end FeedbackCipher

end ZipForensic
