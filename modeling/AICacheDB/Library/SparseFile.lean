import Mathlib.Data.List.Basic

open List

namespace SparseFile

variable {α : Type*} {hole : α}

/-- A write at a position; a gap behind the end of the file reads as `hole`. -/
def pwrite (hole : α) (file : List α) (off : Nat) (data : List α) : List α :=
  if data = [] then file
  else file.take off ++ List.replicate (off - file.length) hole ++ data ++ file.drop (off + data.length)

theorem pwrite_append (base file : List α) (off : Nat) (data : List α) :
    pwrite hole (base ++ file) (base.length + off) data = base ++ pwrite hole file off data := by
  by_cases empty : data = []
  · rw [pwrite, if_pos empty, pwrite, if_pos empty]
  · rw [pwrite, if_neg empty, pwrite, if_neg empty, take_length_add_append, Nat.add_assoc, drop_length_add_append,
      length_append, Nat.add_sub_add_left]
    simp

def Shows (hole : α) (file image : List α) : Prop := ∃ k, file ++ List.replicate k hole = image

theorem Shows.refl (file : List α) : Shows hole file file := ⟨0, append_nil _⟩

theorem Shows.append_hole {file image : List α} (shows_ : Shows hole file image) (n : Nat) :
    Shows hole file (image ++ replicate n hole) := by
  obtain ⟨k, rfl⟩ := shows_
  exact ⟨k + n, by rw [append_assoc, replicate_append_replicate]⟩

theorem Shows.eq {file image : List α} (shows_ : Shows hole file image) (last : ∀ x, image.getLast? = some x → x ≠ hole) :
    file = image := by
  obtain ⟨k, rfl⟩ := shows_
  cases k with
  | zero => exact (append_nil _).symm
  | succ k =>
    rw [replicate_succ', ← append_assoc] at last
    exact absurd rfl (last hole getLast?_concat)

theorem Shows.pwrite {file a gap b data : List α} (shows_ : Shows hole file (a ++ gap ++ b)) (fits : gap.length = data.length) :
    Shows hole (pwrite hole file a.length data) (a ++ data ++ b) := by
  obtain ⟨k, padded⟩ := shows_
  unfold SparseFile.pwrite
  by_cases empty : data = []
  · rw [if_pos empty]
    rw [empty, length_nil] at fits
    rw [eq_nil_of_length_eq_zero fits] at padded
    exact ⟨k, by rw [empty]; exact padded⟩
  · have size := congrArg length padded
    simp only [length_append, length_replicate] at size
    have before : file.take a.length ++ replicate (a.length - file.length) hole = a := by
      calc
        _ = (file ++ replicate k hole).take a.length := by
          rw [take_append, take_replicate, Nat.min_eq_left (by omega)]
        _ = a := by rw [padded, append_assoc, take_left]
    have behind : file.drop (a.length + data.length) ++ replicate (k - (a.length + data.length - file.length)) hole = b := by
      calc
        _ = (file ++ replicate k hole).drop (a.length + data.length) := by rw [drop_append, drop_replicate]
        _ = b := by rw [padded, ← fits, ← length_append, drop_left]
    refine ⟨k - (a.length + data.length - file.length), ?_⟩
    rw [if_neg empty, before, append_assoc, behind]

end SparseFile
