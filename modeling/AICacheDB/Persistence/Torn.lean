import AICacheDB.Library.SparseFile
import AICacheDB.Persistence.Load

open CLib SparseFile Option
open List hiding getElem?_eq_some_iff

namespace AICacheDB

/-- Some commands that are written to the log together, and how many of their bytes the file has received. -/
structure Batch where
  cmds : List Bytes
  written : Nat

namespace Batch

def data (b : Batch) : Bytes := b.cmds.flatten

def image (b : Batch) : Bytes := b.data.take b.written ++ List.replicate (b.data.length - b.written) 0

@[simp] theorem image_length (b : Batch) : b.image.length = b.data.length := by
  rw [image, length_append, length_take, length_replicate]
  omega

variable {b : Batch}

theorem image_of_complete (complete : b.data.length ≤ b.written) : b.image = b.data := by
  rw [image, take_of_length_le complete, Nat.sub_eq_zero_of_le complete, replicate_zero, append_nil]

end Batch

def Batch.images (batches : List Batch) : Bytes := batches.flatMap Batch.image

def Batch.commands (batches : List Batch) : List Bytes := batches.flatMap Batch.cmds

theorem Batch.images_cons (b : Batch) (bs : List Batch) : images (b :: bs) = b.image ++ images bs := rfl

theorem Batch.commands_cons (b : Batch) (bs : List Batch) : commands (b :: bs) = b.cmds ++ commands bs := rfl

theorem Batch.images_append (bs cs : List Batch) : images (bs ++ cs) = images bs ++ images cs := flatMap_append

theorem Batch.commands_append (bs cs : List Batch) : commands (bs ++ cs) = commands bs ++ commands cs := flatMap_append

theorem Batch.images_length (bs : List Batch) : (images bs).length = (commands bs).flatten.length := by
  induction bs with
  | nil => rfl
  | cons b bs ih =>
    rw [images_cons, commands_cons, flatten_append, length_append, length_append, image_length, ih, data]

section Edit

variable {bs : List Batch} {p : Nat} {b b' : Batch} (here : bs[p]? = some b)

include here

theorem Batch.images_split : images bs = images (bs.take p) ++ b.image ++ images (bs.drop (p + 1)) := by
  obtain ⟨inside, rfl⟩ := getElem?_eq_some_iff.mp here
  nth_rewrite 1 [← take_append_drop p bs]
  rw [drop_eq_getElem_cons inside, images_append, images_cons, append_assoc]

theorem Batch.images_set : images (bs.set p b') = images (bs.take p) ++ b'.image ++ images (bs.drop (p + 1)) := by
  obtain ⟨inside, _⟩ := getElem?_eq_some_iff.mp here
  have there : (bs.set p b')[p]? = some b' := getElem?_set_self inside
  rw [images_split there, take_set_of_le le_rfl, drop_set_of_lt (Nat.lt_succ_self p)]

theorem Batch.commands_set (same : b'.cmds = b.cmds) : commands (bs.set p b') = commands bs := by
  have maps : (bs.set p b').map Batch.cmds = bs.map Batch.cmds := by
    obtain ⟨inside, is⟩ := getElem?_eq_some_iff.mp here
    rw [map_set, same, ← is, ← getElem_map Batch.cmds (h := by rwa [length_map]), set_getElem_self]
  rw [commands, flatMap_def, maps, ← flatMap_def, commands]

theorem Batch.images_length_take_set (same : b'.cmds = b.cmds) (q : Nat) :
    (images ((bs.set p b').take q)).length = (images (bs.take q)).length := by
  rcases Nat.lt_or_ge p q with before | behind
  · have there : (bs.take q)[p]? = some b := (getElem?_take_of_lt before).trans here
    rw [take_set, images_length, images_length, commands_set there same]
  · rw [take_set_of_le behind]

end Edit

namespace Resp

theorem stopped_of_append {b u : Bytes} (stopped : Stopped (respParseOneCommand (b ++ u))) : Stopped (respParseOneCommand b) := by
  rcases stopped_or_settled (respParseOneCommand b) with stop | settled
  · exact stop
  · rw [respParseOneCommand_append settled] at stopped
    exact stopped

theorem frameBulks_feed {msg : Bytes} {n p m : Nat} (done : frameBulks msg n p = some (.complete m)) (start : msg[p - 1]? = some 10) :
    msg[m - 1]? = some 10 := by
  induction n generalizing p with
  | zero =>
    rw [frameBulks, some.injEq, Frame.complete.injEq] at done
    exact done ▸ start
  | succ n ih =>
    have settled : Settled (frameBulks msg (n + 1) p) := by
      rw [done]
      exact settled_complete m
    rcases frameBulks_settled settled with ⟨bulkLen, q, p', bulk⟩ | ⟨bulkLen, q, dollar, header, before⟩
    · rw [bulk.next] at done
      obtain ⟨rfl, _, feed⟩ := crlf_eq_some.mp bulk.ends
      exact ih done feed
    · rw [frameBulks_fault dollar header before] at done
      cases done

theorem Exact.getLast? {c : Bytes} (exact_ : Exact c) : c.getLast? = some 10 := by
  have settled : Settled (respParseOneCommand c) := by
    rw [exact_]
    exact settled_complete _
  obtain ⟨_, num, p, header, bulks⟩ := respParseOneCommand_settled settled
  obtain ⟨q, ends, same⟩ := map_eq_some_iff.mp header
  cases same
  obtain ⟨rfl, _, feed⟩ := crlf_eq_some.mp ends
  rw [getLast?_eq_getElem?]
  exact frameBulks_feed (bulks.symm.trans exact_) feed

end Resp

section Torn

def Stops (tail : Bytes) : Prop := tail = [] ∨ Resp.Stopped (Resp.respParseOneCommand tail)

variable {cmds : List Bytes} {file : Bytes}

theorem torn_commands (whole : ∀ c ∈ cmds, Resp.Exact c) {x : Bytes} {k : Nat} (cut : k < cmds.flatten.length)
    (same : ∀ j < k, x[j]? = cmds.flatten[j]?) (blank : ∀ j, k ≤ j → j < cmds.flatten.length → ∀ b, x[j]? = some b → b = 0) :
    ∃ n tail, x = (cmds.take n).flatten ++ tail ∧ Stops tail := by
  induction cmds generalizing x k with
  | nil => exact absurd cut (Nat.not_lt_zero k)
  | cons c cs ih =>
    rw [flatten_cons] at cut same blank
    rcases Nat.lt_or_ge k c.length with torn | passed
    · -- the damage begins in the first command
      have padded : Resp.Blanked c (x ++ replicate c.length 0) k := by
        refine ⟨torn, fun j early => ?_, fun j late inside => ?_⟩
        · have here := same j early
          rw [getElem?_append_left (by omega)] at here
          have there : j < x.length := by
            rw [getElem?_eq_getElem (show j < c.length by omega)] at here
            exact Resp.lt_of_getElem? here
          rw [getElem?_append_left there, here]
        · rcases Nat.lt_or_ge j x.length with there | gone
          · rw [getElem?_append_left there, getElem?_eq_getElem there,
              blank j late (by rw [length_append]; omega) x[j] (getElem?_eq_getElem there)]
          · rw [getElem?_append_right gone, getElem?_replicate, if_pos (by omega)]
      refine ⟨0, x, rfl, Or.inr ?_⟩
      exact Resp.stopped_of_append ((whole c (by simp)).stopped_of_blanked padded)
    · have first : x = c ++ x.drop c.length := by
        have head : x.take c.length = c := by
          apply ext_getElem?
          intro j
          rcases Nat.lt_or_ge j c.length with inside | outside
          · rw [getElem?_take_of_lt inside, same j (by omega), getElem?_append_left inside]
          · rw [getElem?_take_eq_none outside, getElem?_eq_none outside]
        nth_rewrite 1 [← take_append_drop c.length x]
        rw [head]
      have later : ∀ j, (x.drop c.length)[j]? = x[c.length + j]? := fun j => getElem?_drop
      rw [length_append] at cut
      obtain ⟨n, tail, shape, stops⟩ := ih (fun c member => whole c (mem_cons_of_mem _ member)) (x := x.drop c.length)
        (k := k - c.length) (by omega)
        (fun j early => by rw [later, same _ (by omega), getElem?_append_right (by omega), Nat.add_sub_cancel_left])
        (fun j late inside b there => blank (c.length + j) (by omega) (by rw [length_append]; omega) b (by rw [← later, there]))
      exact ⟨n + 1, tail, by rw [take_succ_cons, flatten_cons, append_assoc, ← shape]; exact first, stops⟩

variable {batches : List Batch}

theorem images_complete (complete : ∀ b ∈ batches, b.data.length ≤ b.written) :
    Batch.images batches = (Batch.commands batches).flatten := by
  induction batches with
  | nil => rfl
  | cons b bs ih =>
    have rest := ih fun b member => complete b (mem_cons_of_mem _ member)
    rw [Batch.images_cons, Batch.image_of_complete (complete b (by simp)), rest, Batch.commands_cons, flatten_append, Batch.data]

theorem flatten_last (whole : ∀ c ∈ cmds, Resp.Exact c) {x : UInt8} (last : cmds.flatten.getLast? = some x) : x = 10 := by
  rcases eq_nil_or_concat' cmds with rfl | ⟨cs, c, rfl⟩
  · cases last
  · have feed := (whole c (by simp)).getLast?
    rw [flatten_append, flatten_cons, flatten_nil, append_nil, getLast?_append, feed] at last
    exact (some.inj last).symm

theorem file_complete (whole : ∀ c ∈ Batch.commands batches, Resp.Exact c)
    (complete : ∀ b ∈ batches, b.data.length ≤ b.written) (shows_ : Shows 0 file (Batch.images batches)) :
    file = (Batch.commands batches).flatten := by
  rw [images_complete complete] at shows_
  apply shows_.eq
  intro x last zero
  have feed := flatten_last whole last
  rw [zero] at feed
  cases feed

end Torn

end AICacheDB
