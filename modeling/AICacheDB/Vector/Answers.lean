import AICacheDB.Vector.Intact

open CLib RedBlack

namespace AICacheDB.KvsVector

variable {F : Type} {inst inst' : KvsVector F}

def Answers (inst : KvsVector F) (question answer : CString) (vec : List F) : Prop :=
  ∃ id e, inst.entry id = some e ∧ e.deleted = false ∧ e.question = question ∧ e.answer = answer ∧ e.vector = vec

section Lookup

variable {t : ColorTree (Rbtree.Cell CString Nat)} (registered : Registered inst t)

include registered

theorem getByKey_iff {question : CString} {e : VectorEntry F} :
    kvsVectorGetByKey inst question = some (some e) ↔ ∃ id, inst.entry id = some e ∧ e.deleted = false ∧ e.question = question := by
  have listed : Listed (fun _ => True) inst t := by
    refine ⟨registered.valid, fun x member => ?_⟩
    obtain ⟨f, found, _, key⟩ := registered.stored x member
    exact ⟨f, found, key, trivial⟩
  rw [listed.getByKey_iff]
  constructor
  · rintro ⟨x, member, rfl, found⟩
    obtain ⟨f, found', present, key⟩ := registered.stored x member
    rw [found] at found'
    cases found'
    exact ⟨x.value, found, present, key⟩
  · rintro ⟨id, found, present, rfl⟩
    obtain ⟨x, member, key, rfl⟩ := registered.live_cell found present
    exact ⟨x, member, key, found⟩

theorem answers_iff_getByKey {question answer : CString} {vec : List F} : Answers inst question answer vec ↔
      ∃ e, kvsVectorGetByKey inst question = some (some e) ∧ e.answer = answer ∧ e.vector = vec := by
  constructor
  · rintro ⟨id, e, found, present, key, isAnswer, isVec⟩
    exact ⟨e, (getByKey_iff registered).mpr ⟨id, found, present, key⟩, isAnswer, isVec⟩
  · rintro ⟨e, get, isAnswer, isVec⟩
    obtain ⟨id, found, present, key⟩ := (getByKey_iff registered).mp get
    exact ⟨id, e, found, present, key, isAnswer, isVec⟩

end Lookup

theorem Stored.answers {question answer : CString} {vec : List F} (shape : GraphShape inst)
    (stored : Stored inst question answer vec inst') {question' answer' : CString} {vec' : List F} :
    Answers inst' question' answer' vec' ↔
      (question' = question ∧ answer' = answer ∧ vec' = vec) ∨ question' ≠ question ∧ Answers inst question' answer' vec' := by
  constructor
  · rintro ⟨id, e, found, present, rfl, rfl, rfl⟩
    have small := entry_lt found
    rw [stored.size] at small
    rcases Nat.lt_or_ge id inst.nextId with old | beyond
    · obtain ⟨e0, found0⟩ := shape.live id old
      obtain ⟨e', found', sameQuestion, sameAnswer, sameVec, deleted⟩ := stored.old found0
      rw [found] at found'
      cases found'
      have alive : ¬ (e0.deleted = true ∨ e0.question = question) := fun gone => by
        rw [deleted.mpr gone] at present
        cases present
      rw [not_or] at alive
      exact .inr ⟨sameQuestion ▸ alive.2, id, e0, found0, by simpa using alive.1, sameQuestion.symm, sameAnswer.symm, sameVec.symm⟩
    · obtain ⟨f, foundNew, rfl, rfl, rfl, _⟩ := stored.new
      have here : id = inst.nextId := by omega
      rw [here, foundNew] at found
      cases found
      exact .inl ⟨rfl, rfl, rfl⟩
  · rintro (⟨rfl, rfl, rfl⟩ | ⟨other, id, e, found, present, rfl, rfl, rfl⟩)
    · obtain ⟨f, found, isQuestion, isAnswer, isVec, present⟩ := stored.new
      exact ⟨_, f, found, present, isQuestion, isAnswer, isVec⟩
    · obtain ⟨e', found', sameQuestion, sameAnswer, sameVec, deleted⟩ := stored.old found
      refine ⟨id, e', found', ?_, sameQuestion, sameAnswer, sameVec⟩
      cases state : e'.deleted with
      | false => rfl
      | true =>
        rcases deleted.mp state with gone | same
        · rw [present] at gone
          cases gone
        · exact absurd same other

end AICacheDB.KvsVector
