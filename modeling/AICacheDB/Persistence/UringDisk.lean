import AICacheDB.Persistence.Torn
import AICacheDB.Persistence.Uring

open CLib SparseFile Option Function
open List hiding getElem?_eq_some_iff

namespace AICacheDB.AofDisk

def Progress (e : Sqe) (written : Nat) : Prop :=
  match e.stage with
  | .prepared => written = e.start
  | .submitted => written = e.start
  | .running done => done ≤ e.len ∧ written = e.start + done
  | .completed res => 0 ≤ res → res.toNat ≤ e.len ∧ written = e.start + res.toNat

/-- A write in io_uring: its request is in use and holds the rest of the batch at this place of the log. -/
structure Carries (d : AofDisk) (base : Nat) (batches : List Batch) (place : Nat) (e : Sqe) (b : Batch) : Prop where
  slot : e.req < aofIoDepth
  inUse : (d.reqs e.req).inUse = true
  batch : batches[place]? = some b
  len : (d.reqs e.req).len = b.data.length
  data : (d.reqs e.req).buf.take b.data.length = b.data
  fileOff : (d.reqs e.req).fileOff = base + (Batch.images (batches.take place)).length
  start : e.start = (d.reqs e.req).written
  rest : e.start + e.len = b.data.length
  off : e.off = (d.reqs e.req).fileOff + e.start
  progress : Progress e b.written

/-- The requests, the writes and the file belong to these batches, behind the bytes `base` that were there before. -/
structure Holds (base : Bytes) (d : AofDisk) (batches : List Batch) (place : Nat → Nat) : Prop where
  offset : d.offset = base.length + (Batch.images batches).length
  file : ∃ tail, d.file = base ++ tail ∧ Shows 0 tail (Batch.images batches)
  carries : ∀ e ∈ d.sqes, ∃ b, d.Carries base.length batches (place e.req) e b
  busy : ∀ i, (d.reqs i).inUse = true → ∃ e ∈ d.sqes, e.req = i
  single : (d.sqes.map Sqe.req).Nodup
  apart : ∀ e ∈ d.sqes, ∀ e' ∈ d.sqes, place e.req = place e'.req → e.req = e'.req
  inflight : d.inflight = d.sqes.length
  pending : ∀ j b, batches[j]? = some b → b.written < b.data.length → (∃ e ∈ d.sqes, place e.req = j) ∨ d.failed = true

section Basic

variable {base : Bytes} {d d' : AofDisk} {batches : List Batch} {place : Nat → Nat} {e : Sqe} {b : Batch} {p n : Nat}

section

variable (carries : d.Carries n batches p e b)

include carries

theorem Carries.congr (same : d'.reqs e.req = d.reqs e.req) : d'.Carries n batches p e b where
  slot := carries.slot
  inUse := same ▸ carries.inUse
  batch := carries.batch
  len := same ▸ carries.len
  data := same ▸ carries.data
  fileOff := same ▸ carries.fileOff
  start := same ▸ carries.start
  rest := carries.rest
  off := same ▸ carries.off
  progress := carries.progress

theorem Carries.stage (stage : Stage) (progress : Progress { e with stage := stage } b.written) :
    d.Carries n batches p { e with stage := stage } b where
  slot := carries.slot
  inUse := carries.inUse
  batch := carries.batch
  len := carries.len
  data := carries.data
  fileOff := carries.fileOff
  start := carries.start
  rest := carries.rest
  off := carries.off
  progress := progress

theorem Carries.advance (b' : Batch) (cmds : b'.cmds = b.cmds) (stage : Stage)
    (progress : Progress { e with stage := stage } b'.written) :
    d.Carries n (batches.set p b') p { e with stage := stage } b' := by
  have data : b'.data = b.data := congrArg flatten cmds
  obtain ⟨inside, _⟩ := getElem?_eq_some_iff.mp carries.batch
  constructor
  · exact carries.slot
  · exact carries.inUse
  · exact getElem?_set_self inside
  · rw [data]
    exact carries.len
  · rw [data]
    exact carries.data
  · rw [Batch.images_length_take_set carries.batch cmds]
    exact carries.fileOff
  · exact carries.start
  · rw [data]
    exact carries.rest
  · exact carries.off
  · exact progress

theorem Carries.set {q : Nat} {c c' : Batch} (there : batches[q]? = some c)
    (same : c'.cmds = c.cmds) (other : p ≠ q) : d.Carries n (batches.set q c') p e b where
  slot := carries.slot
  inUse := carries.inUse
  batch := by rw [getElem?_set_ne (Ne.symm other)]; exact carries.batch
  len := carries.len
  data := carries.data
  fileOff := by rw [Batch.images_length_take_set there same]; exact carries.fileOff
  start := carries.start
  rest := carries.rest
  off := carries.off
  progress := carries.progress

end

variable (holds : d.Holds base batches place)

include holds

theorem Holds.few : d.sqes.length ≤ aofIoDepth := by
  have inside : d.sqes.map Sqe.req ⊆ range aofIoDepth := by
    intro i member
    obtain ⟨e, here, rfl⟩ := mem_map.mp member
    obtain ⟨b, carries⟩ := holds.carries e here
    exact mem_range.mpr carries.slot
  have bound := (subperm_of_subset holds.single inside).length_le
  rwa [length_map, length_range] at bound

omit holds in
theorem not_full (few : d.sqes.length ≤ aofIoDepth) : ¬ d.Full := by
  have bound : d.unconsumed ≤ d.sqes.length := length_filter_le _ _
  unfold Full
  unfold aofIoDepth at few
  unfold aofUringEntries
  omega

omit holds in
theorem getSqe_eq (few : d.sqes.length ≤ aofIoDepth) : d.getSqe = d := if_neg (not_full few)

theorem Holds.perm {sqes : List Sqe} (perm : sqes.Perm d.sqes) :
    AofDisk.Holds base { d with sqes := sqes } batches place := by
  refine ⟨holds.offset, holds.file, fun e member => ?_, fun i used => ?_, (perm.map _).nodup_iff.mpr holds.single,
    fun e member e' member' => holds.apart e (perm.mem_iff.mp member) e' (perm.mem_iff.mp member'),
    by rw [perm.length_eq]; exact holds.inflight, fun j b here torn => ?_⟩
  · obtain ⟨b, carries⟩ := holds.carries e (perm.mem_iff.mp member)
    exact ⟨b, carries.congr rfl⟩
  · obtain ⟨e, member, is⟩ := holds.busy i used
    exact ⟨e, perm.mem_iff.mpr member, is⟩
  · rcases holds.pending j b here torn with ⟨e, member, is⟩ | failed
    · exact Or.inl ⟨e, perm.mem_iff.mpr member, is⟩
    · exact Or.inr failed

theorem Holds.free {i : Nat} (idle : (d.reqs i).inUse = false) : ∀ e ∈ d.sqes, e.req ≠ i := by
  rintro e member rfl
  obtain ⟨b, carries⟩ := holds.carries e member
  rw [carries.inUse] at idle
  cases idle

theorem Holds.setReq {i : Nat} (req : AofWriteReq) (idle : (d.reqs i).inUse = false)
    (still : req.inUse = false) : (d.setReq i req).Holds base batches place := by
  have other := holds.free idle
  have same : ∀ e ∈ d.sqes, (d.setReq i req).reqs e.req = d.reqs e.req := fun e member => update_of_ne (other e member) ..
  refine ⟨holds.offset, holds.file, fun e member => ?_, fun k used => ?_, holds.single, holds.apart, holds.inflight, holds.pending⟩
  · obtain ⟨b, carries⟩ := holds.carries e member
    exact ⟨b, carries.congr (same e member)⟩
  · have elsewhere : k ≠ i := by
      rintro rfl
      rw [show (d.setReq k req).reqs k = req from update_self .., still] at used
      cases used
    rw [show (d.setReq i req).reqs k = d.reqs k from update_of_ne elsewhere ..] at used
    exact holds.busy k used

end Basic

section Submit

variable {base : Bytes} {d : AofDisk} {batches : List Batch} {place : Nat → Nat}

theorem Holds.submit (holds : d.Holds base batches place) : d.submit.Holds base batches place := by
  let f : Sqe → Sqe := fun e => if e.stage = .prepared then { e with stage := .submitted } else e
  have req : ∀ e, (f e).req = e.req := by
    intro e
    show (if e.stage = .prepared then { e with stage := .submitted } else e).req = e.req
    split <;> rfl
  have reqs : (d.sqes.map f).map Sqe.req = d.sqes.map Sqe.req := by
    rw [List.map_map]
    exact map_congr_left fun e _ => req e
  have back : ∀ e' ∈ d.sqes.map f, ∃ e ∈ d.sqes, e' = f e := by
    intro e' member
    obtain ⟨e, here, rfl⟩ := mem_map.mp member
    exact ⟨e, here, rfl⟩
  refine ⟨holds.offset, holds.file, fun e' member => ?_, fun i used => ?_, reqs ▸ holds.single, fun e1 member1 e2 member2 same => ?_,
    ?_, fun j b here torn => ?_⟩
  · obtain ⟨e, here, rfl⟩ := back e' member
    obtain ⟨b, carries⟩ := holds.carries e here
    refine ⟨b, ?_⟩
    rw [req]
    by_cases prepared : e.stage = .prepared
    · rw [show f e = { e with stage := .submitted } from if_pos prepared]
      have progress := carries.progress
      unfold Progress at progress
      rw [prepared] at progress
      exact (carries.stage .submitted progress).congr rfl
    · rw [show f e = e from if_neg prepared]
      exact carries.congr rfl
  · obtain ⟨e, here, is⟩ := holds.busy i used
    exact ⟨f e, mem_map_of_mem here, (req e).trans is⟩
  · obtain ⟨e, here, rfl⟩ := back e1 member1
    obtain ⟨e', here', rfl⟩ := back e2 member2
    rw [req, req] at same ⊢
    exact holds.apart e here e' here' same
  · show d.inflight = (d.sqes.map f).length
    rw [length_map, holds.inflight]
  · rcases holds.pending j b here torn with ⟨e, member, is⟩ | failed
    · exact Or.inl ⟨f e, mem_map_of_mem member, by rw [req]; exact is⟩
    · exact Or.inr failed

end Submit

section Replace

variable {base : Bytes} {d d' : AofDisk} {batches : List Batch} {place : Nat → Nat} {xs ys : List Sqe} {e : Sqe} {b : Batch}

theorem Holds.others (holds : d.Holds base batches place) (shape : d.sqes = xs ++ e :: ys) :
    ∀ a ∈ xs ++ ys, a ∈ d.sqes ∧ a.req ≠ e.req ∧ place a.req ≠ place e.req := by
  intro a member
  have inside : a ∈ d.sqes := by
    rw [shape]
    rcases mem_append.mp member with left | right
    · exact mem_append_left _ left
    · exact mem_append_right _ (mem_cons_of_mem _ right)
  have here : e ∈ d.sqes := by
    rw [shape]
    exact mem_append_right _ mem_cons_self
  have single := holds.single
  rw [shape, map_append, map_cons, nodup_middle, nodup_cons, ← map_append] at single
  have other : a.req ≠ e.req := fun same => single.1 (same ▸ mem_map_of_mem member)
  exact ⟨inside, other, fun same => other (holds.apart a inside e here same)⟩

theorem mem_middle {a : Sqe} : a ∈ xs ++ e :: ys ↔ a = e ∨ a ∈ xs ++ ys := by
  rw [mem_append, mem_cons, mem_append]
  tauto

theorem Holds.replace (holds : d.Holds base batches place) (e' : Sqe) (b' : Batch) (shape : d.sqes = xs ++ e :: ys) (shape' : d'.sqes = xs ++ e' :: ys)
    (req : e'.req = e.req) (here : batches[place e.req]? = some b) (cmds : b'.cmds = b.cmds)
    (carries : d'.Carries base.length (batches.set (place e.req) b') (place e.req) e' b')
    (reqs : ∀ i, i ≠ e.req → d'.reqs i = d.reqs i) (offset : d'.offset = d.offset) (inflight : d'.inflight = d.inflight)
    (failed : d'.failed = d.failed)
    (file : ∃ tail, d'.file = base ++ tail ∧ Shows 0 tail (Batch.images (batches.set (place e.req) b'))) :
    d'.Holds base (batches.set (place e.req) b') place := by
  have others := holds.others shape
  have size : (Batch.images (batches.set (place e.req) b')).length = (Batch.images batches).length := by
    rw [Batch.images_length, Batch.images_length, Batch.commands_set here cmds]
  refine ⟨by rw [offset, size, holds.offset], file, fun a member => ?_, fun i used => ?_, ?_, fun a member a' member' same => ?_, ?_,
    fun j c there torn => ?_⟩
  · rw [shape'] at member
    rcases mem_middle.mp member with rfl | other
    · exact ⟨b', req ▸ carries⟩
    · obtain ⟨inside, ne, apart⟩ := others a other
      obtain ⟨c, old⟩ := holds.carries a inside
      exact ⟨c, (old.set here cmds apart).congr (reqs a.req ne)⟩
  · by_cases mine : i = e.req
    · exact ⟨e', by rw [shape']; exact mem_middle.mpr (Or.inl rfl), req.trans mine.symm⟩
    · rw [reqs i mine] at used
      obtain ⟨a, inside, rfl⟩ := holds.busy i used
      rw [shape] at inside
      rcases mem_middle.mp inside with rfl | other
      · exact absurd rfl mine
      · exact ⟨a, by rw [shape']; exact mem_middle.mpr (Or.inr other), rfl⟩
  · have single := holds.single
    rw [shape, map_append, map_cons] at single
    rw [shape', map_append, map_cons, req]
    exact single
  · have old : ∀ a ∈ d'.sqes, ∃ c ∈ d.sqes, c.req = a.req := by
      intro a member
      rw [shape'] at member
      rcases mem_middle.mp member with rfl | other
      · exact ⟨e, by rw [shape]; exact mem_middle.mpr (Or.inl rfl), req.symm⟩
      · exact ⟨a, (others a other).1, rfl⟩
    obtain ⟨c, inside, is⟩ := old a member
    obtain ⟨c', inside', is'⟩ := old a' member'
    rw [← is, ← is'] at same ⊢
    exact holds.apart c inside c' inside' same
  · rw [inflight, holds.inflight, shape, shape', length_append, length_append, length_cons, length_cons]
  · by_cases mine : j = place e.req
    · exact Or.inl ⟨e', by rw [shape']; exact mem_middle.mpr (Or.inl rfl), by rw [req, mine]⟩
    · rw [getElem?_set_ne (Ne.symm mine)] at there
      rcases holds.pending j c there torn with ⟨a, inside, is⟩ | bad
      · rw [shape] at inside
        rcases mem_middle.mp inside with rfl | other
        · exact absurd is.symm mine
        · exact Or.inl ⟨a, by rw [shape']; exact mem_middle.mpr (Or.inr other), is⟩
      · exact Or.inr (failed.trans bad)

theorem Holds.remove (holds : d.Holds base batches place) (shape : d.sqes = xs ++ e :: ys) (shape' : d'.sqes = xs ++ ys)
    (idle : (d'.reqs e.req).inUse = false) (reqs : ∀ i, i ≠ e.req → d'.reqs i = d.reqs i) (offset : d'.offset = d.offset)
    (inflight : d'.inflight = d.inflight - 1) (file : d'.file = d.file) (failed : d.failed = true → d'.failed = true)
    (complete : (∀ b, batches[place e.req]? = some b → b.data.length ≤ b.written) ∨ d'.failed = true) :
    d'.Holds base batches place := by
  have others := holds.others shape
  refine ⟨offset.trans holds.offset, file ▸ holds.file, fun a member => ?_, fun i used => ?_, ?_, fun a member a' member' same => ?_, ?_,
    fun j c there torn => ?_⟩
  · rw [shape'] at member
    obtain ⟨inside, ne, _⟩ := others a member
    obtain ⟨c, old⟩ := holds.carries a inside
    exact ⟨c, old.congr (reqs a.req ne)⟩
  · have mine : i ≠ e.req := by
      rintro rfl
      rw [idle] at used
      cases used
    rw [reqs i mine] at used
    obtain ⟨a, inside, rfl⟩ := holds.busy i used
    rw [shape] at inside
    rcases mem_middle.mp inside with rfl | other
    · exact absurd rfl mine
    · exact ⟨a, by rw [shape']; exact other, rfl⟩
  · have single := holds.single
    rw [shape, map_append, map_cons, nodup_middle, nodup_cons, ← map_append, ← shape'] at single
    exact single.2
  · rw [shape'] at member member'
    exact holds.apart a (others a member).1 a' (others a' member').1 same
  · rw [inflight, holds.inflight, shape, shape', length_append, length_append, length_cons]
    push_cast
    omega
  · rcases holds.pending j c there torn with ⟨a, inside, is⟩ | bad
    · rw [shape] at inside
      rcases mem_middle.mp inside with rfl | other
      · rcases complete with done | bad
        · rw [is] at done
          exact absurd (done c there) (not_le.mpr torn)
        · exact Or.inr bad
      · exact Or.inl ⟨a, by rw [shape']; exact other, is⟩
    · exact Or.inr (failed bad)

end Replace

section Kernel

variable {base : Bytes} {d d' : AofDisk} {batches : List Batch} {place : Nat → Nat} {j : Nat} {e : Sqe} {b : Batch}

theorem setStage_sqes {xs ys : List Sqe} (shape : d.sqes = xs ++ e :: ys) (stage : Stage) :
    (d.setStage xs.length stage).sqes = xs ++ { e with stage := stage } :: ys := by
  show d.sqes.modify xs.length _ = _
  rw [shape, KeyedList.modify_split]

theorem Holds.setStage (holds : d.Holds base batches place) (here : d.sqes[j]? = some e)
    (carries : d.Carries base.length batches (place e.req) e b) (stage : Stage) (progress : Progress { e with stage := stage } b.written) :
    (d.setStage j stage).Holds base batches place := by
  obtain ⟨xs, ys, shape, rfl⟩ := KeyedList.split_of_getElem? here
  have same : batches.set (place e.req) b = batches := by
    obtain ⟨inside, is⟩ := getElem?_eq_some_iff.mp carries.batch
    rw [← is, set_getElem_self]
  have moved := holds.replace { e with stage := stage } b shape (setStage_sqes shape stage) rfl carries.batch rfl
    (by rw [same]; exact (carries.stage stage progress).congr rfl) (fun _ _ => rfl) rfl rfl rfl (by rw [same]; exact holds.file)
  rwa [same] at moved

theorem shows_write {tail : Bytes} {p : Nat} (shows_ : Shows 0 tail (Batch.images batches)) (here : batches[p]? = some b) (count : Nat)
    (fits : b.written + count ≤ b.data.length) :
    Shows 0 (pwrite 0 tail ((Batch.images (batches.take p)).length + b.written) ((b.data.drop b.written).take count))
      (Batch.images (batches.set p { b with written := b.written + count })) := by
  have size : ((b.data.drop b.written).take count).length = count := by
    rw [length_take, length_drop]
    omega
  have before : Batch.images batches = (Batch.images (batches.take p) ++ b.data.take b.written) ++ replicate count 0 ++
      (replicate (b.data.length - (b.written + count)) 0 ++ Batch.images (batches.drop (p + 1))) := by
    have zeros : replicate (b.data.length - b.written) (0 : UInt8) =
        replicate count 0 ++ replicate (b.data.length - (b.written + count)) 0 := by
      rw [replicate_append_replicate]
      congr 1
      omega
    rw [Batch.images_split here, Batch.image, zeros]
    simp only [append_assoc]
  have after : Batch.images (batches.set p { b with written := b.written + count }) =
      (Batch.images (batches.take p) ++ b.data.take b.written) ++ (b.data.drop b.written).take count ++
      (replicate (b.data.length - (b.written + count)) 0 ++ Batch.images (batches.drop (p + 1))) := by
    have taken : b.data.take (b.written + count) = b.data.take b.written ++ (b.data.drop b.written).take count := take_add
    rw [Batch.images_set here, Batch.image]
    show _ ++ (b.data.take (b.written + count) ++ replicate (b.data.length - (b.written + count)) 0) ++ _ = _
    rw [taken]
    simp only [append_assoc]
  rw [before] at shows_
  have position : (Batch.images (batches.take p) ++ b.data.take b.written).length =
      (Batch.images (batches.take p)).length + b.written := by
    rw [length_append, length_take_of_le (by omega)]
  rw [after, ← position]
  exact shows_.pwrite (by rw [length_replicate, size])

theorem Holds.write (holds : d.Holds base batches place) (here : d.sqes[j]? = some e)
    (carries : d.Carries base.length batches (place e.req) e b) {done count : Nat} (running : e.stage = .running done)
    (fits : done + count ≤ e.len) : AofDisk.Holds base { d.setStage j (.running (done + count)) with
        file := pwrite 0 d.file (e.off + done) (((d.reqs e.req).buf.drop (e.start + done)).take count) }
      (batches.set (place e.req) { b with written := b.written + count }) place := by
  obtain ⟨xs, ys, shape, rfl⟩ := KeyedList.split_of_getElem? here
  have rest := carries.rest
  obtain ⟨_, written⟩ : done ≤ e.len ∧ b.written = e.start + done := by
    have progress := carries.progress
    unfold Progress at progress
    rwa [running] at progress
  have chunk : ((d.reqs e.req).buf.drop (e.start + done)).take count = (b.data.drop b.written).take count := by
    rw [← carries.data, written, drop_take, take_take, Nat.min_eq_left (by omega)]
  obtain ⟨tail, file, shows_⟩ := holds.file
  have where_ : e.off + done = base.length + ((Batch.images (batches.take (place e.req))).length + b.written) := by
    rw [carries.off, carries.fileOff, written]
    omega
  have written' := shows_write shows_ carries.batch count (by omega)
  have progress : Progress { e with stage := .running (done + count) } (b.written + count) := by
    show done + count ≤ e.len ∧ b.written + count = e.start + (done + count)
    omega
  refine holds.replace { e with stage := .running (done + count) } { b with written := b.written + count } shape
    (setStage_sqes shape _) rfl carries.batch rfl ?_ (fun _ _ => rfl) rfl rfl rfl ⟨_, by rw [file, where_, pwrite_append, chunk], written'⟩
  exact (carries.advance { b with written := b.written + count } rfl (.running (done + count)) progress).congr rfl

theorem kernel_reqs {step : KernelStep} (ran : d.kernel j step = some d') : d'.reqs = d.reqs := by
  unfold AofDisk.kernel at ran
  cases here : d.sqes[j]? with
  | none =>
    rw [here] at ran
    cases ran
  | some e =>
    rw [here, bind_eq_bind, bind_some] at ran
    split at ran
    · cases ran
      rfl
    · split at ran
      · cases ran
        rfl
      · cases ran
    · cases ran
      rfl
    · split at ran
      · cases ran
        rfl
      · cases ran
    · cases ran

theorem Holds.kernel (holds : d.Holds base batches place) {step : KernelStep} (ran : d.kernel j step = some d') :
    ∃ batches', d'.Holds base batches' place ∧ Batch.commands batches' = Batch.commands batches := by
  unfold AofDisk.kernel at ran
  cases here : d.sqes[j]? with
  | none =>
    rw [here] at ran
    cases ran
  | some e =>
    rw [here, bind_eq_bind, bind_some] at ran
    obtain ⟨b, carries⟩ := holds.carries e (mem_of_getElem? here)
    have progress := carries.progress
    unfold Progress at progress
    split at ran
    · rename_i submitted
      cases ran
      rw [submitted] at progress
      exact ⟨batches, holds.setStage here carries _ ⟨Nat.zero_le _, progress⟩, rfl⟩
    · rename_i count done running
      split at ran
      · rename_i fits
        cases ran
        exact ⟨_, holds.write here carries running fits, Batch.commands_set carries.batch rfl⟩
      · cases ran
    · rename_i done running
      cases ran
      rw [running] at progress
      refine ⟨batches, holds.setStage here carries _ fun _ => ?_, rfl⟩
      rw [Int.toNat_natCast]
      exact progress
    · rename_i err done running
      split at ran
      · rename_i negative
        cases ran
        exact ⟨batches, holds.setStage here carries _ fun positive => absurd positive (not_le.mpr negative), rfl⟩
      · cases ran
    · cases ran

end Kernel

section Worker

variable {base : Bytes} {d : AofDisk} {batches : List Batch} {place : Nat → Nat} {j n p : Nat} {e : Sqe} {b : Batch}

theorem Carries.append (carries : d.Carries n batches p e b) (more : List Batch) : d.Carries n (batches ++ more) p e b := by
  have inside : p < batches.length := (getElem?_eq_some_iff.mp carries.batch).1
  constructor
  · exact carries.slot
  · exact carries.inUse
  · rw [getElem?_append_left inside]
    exact carries.batch
  · exact carries.len
  · exact carries.data
  · rw [take_append_of_le_length (Nat.le_of_lt inside)]
    exact carries.fileOff
  · exact carries.start
  · exact carries.rest
  · exact carries.off
  · exact carries.progress

theorem prepWrite_carries (offset : d.offset = n + (Batch.images batches).length) {i : Nat} (slot : i < aofIoDepth)
    {cur : List Bytes} (len : (d.reqs i).len = cur.flatten.length) (data : (d.reqs i).buf.take cur.flatten.length = cur.flatten)
    (written : (d.reqs i).written = 0) :
    (d.prepWrite i).Carries n (batches ++ [⟨cur, 0⟩]) batches.length ⟨i, 0, (d.reqs i).len, d.offset, .prepared⟩ ⟨cur, 0⟩ := by
  have req : (d.prepWrite i).reqs i = { d.reqs i with fileOff := d.offset, inUse := true } := update_self ..
  constructor
  · exact slot
  · rw [req]
  · exact getElem?_concat_length
  · rw [req]
    exact len
  · rw [req]
    exact data
  · rw [req, take_left]
    exact offset
  · rw [req]
    exact written.symm
  · rw [Nat.zero_add]
    exact len
  · rw [req]
    rfl
  · rfl

theorem Holds.prepWrite (holds : d.Holds base batches place) {i : Nat} (slot : i < aofIoDepth) (idle : (d.reqs i).inUse = false)
    {cur : List Bytes} (len : (d.reqs i).len = cur.flatten.length) (data : (d.reqs i).buf.take cur.flatten.length = cur.flatten)
    (written : (d.reqs i).written = 0) :
    (d.prepWrite i).Holds base (batches ++ [⟨cur, 0⟩]) (update place i batches.length) := by
  have other := holds.free idle
  have new := prepWrite_carries holds.offset slot len data written
  have image : Batch.images (batches ++ [⟨cur, 0⟩]) = Batch.images batches ++ replicate cur.flatten.length 0 := by
    rw [Batch.images_append, Batch.images_cons, Batch.image]
    simp [Batch.images, Batch.data]
  have kept : ∀ e ∈ d.sqes, update place i batches.length e.req = place e.req := fun e member =>
    update_of_ne (other e member) ..
  have early : ∀ e ∈ d.sqes, place e.req < batches.length := by
    intro e member
    obtain ⟨b, carries⟩ := holds.carries e member
    exact (getElem?_eq_some_iff.mp carries.batch).1
  have last : update place i batches.length i = batches.length := update_self ..
  have cases_ : ∀ e ∈ (d.prepWrite i).sqes, e ∈ d.sqes ∨ e = ⟨i, 0, (d.reqs i).len, d.offset, .prepared⟩ := by
    intro e member
    rcases mem_append.mp member with old | added
    · exact Or.inl old
    · exact Or.inr (mem_singleton.mp added)
  refine ⟨?_, ?_, fun e member => ?_, fun k used => ?_, ?_, fun e member e' member' same => ?_, ?_, fun j b here torn => ?_⟩
  · show d.offset + (d.reqs i).len = _
    rw [holds.offset, image, length_append, length_replicate, len, Nat.add_assoc]
  · obtain ⟨tail, file, shows_⟩ := holds.file
    exact ⟨tail, file, image ▸ shows_.append_hole _⟩
  · rcases cases_ e member with old | rfl
    · obtain ⟨b, carries⟩ := holds.carries e old
      rw [kept e old]
      exact ⟨b, (carries.append _).congr (update_of_ne (other e old) ..)⟩
    · exact ⟨_, last.symm ▸ new⟩
  · by_cases mine : k = i
    · exact ⟨_, mem_append_right _ (mem_singleton_self _), mine.symm⟩
    · rw [show (d.prepWrite i).reqs k = d.reqs k from update_of_ne mine ..] at used
      obtain ⟨e, member, is⟩ := holds.busy k used
      exact ⟨e, mem_append_left _ member, is⟩
  · show ((d.sqes ++ [_]).map Sqe.req).Nodup
    rw [map_append, map_singleton]
    refine Nodup.append holds.single (nodup_singleton _) ?_
    intro k member single
    obtain ⟨e, here, rfl⟩ := mem_map.mp member
    exact other e here (mem_singleton.mp single)
  · rcases cases_ e member with old | rfl <;> rcases cases_ e' member' with old' | rfl
    · rw [kept e old, kept e' old'] at same
      exact holds.apart e old e' old' same
    · rw [kept e old, last] at same
      exact absurd same (Nat.ne_of_lt (early e old))
    · rw [kept e' old', last] at same
      exact absurd same.symm (Nat.ne_of_lt (early e' old'))
    · rfl
  · show d.inflight + 1 = ((d.sqes ++ [_]).length : Int)
    rw [holds.inflight, length_append]
    rfl
  · rcases Nat.lt_or_ge j batches.length with before | behind
    · rw [getElem?_append_left before] at here
      rcases holds.pending j b here torn with ⟨e, member, is⟩ | failed
      · exact Or.inl ⟨e, mem_append_left _ member, (kept e member).trans is⟩
      · exact Or.inr failed
    · have there : j = batches.length := by
        have := (getElem?_eq_some_iff.mp here).1
        rw [length_append, length_singleton] at this
        omega
      exact Or.inl ⟨_, mem_append_right _ (mem_singleton_self _), last.trans there.symm⟩

theorem Holds.resubmit (holds : d.Holds base batches place) {xs ys : List Sqe} (shape : d.sqes = xs ++ e :: ys)
    (carries : d.Carries base.length batches (place e.req) e b) {count : Nat} (fits : count ≤ e.len) (written : b.written = e.start + count)
    {req : AofWriteReq} (same : req = { d.reqs e.req with written := (d.reqs e.req).written + count }) :
    AofDisk.Holds base { d.setReq e.req req with
      sqes := xs ++ ys ++ [⟨e.req, req.written, req.len - req.written, req.fileOff + req.written, .prepared⟩] } batches place := by
  have rest := carries.rest
  have start := carries.start
  have len := carries.len
  have set : batches.set (place e.req) b = batches := by
    obtain ⟨inside, is⟩ := getElem?_eq_some_iff.mp carries.batch
    rw [← is, set_getElem_self]
  have perm : (xs ++ ys ++ [e]).Perm d.sqes := by
    rw [shape, append_assoc]
    exact (perm_append_singleton e ys).append_left xs
  have self : (d.setReq e.req req).reqs e.req = req := update_self ..
  rw [← set]
  refine (holds.perm perm).replace ⟨e.req, req.written, req.len - req.written, req.fileOff + req.written, .prepared⟩ b
    (show xs ++ ys ++ [e] = (xs ++ ys) ++ e :: [] from rfl) rfl rfl carries.batch rfl ?_ (fun i other => update_of_ne other ..)
    rfl rfl rfl ?_
  · rw [set]
    constructor
    · exact carries.slot
    · show ((d.setReq e.req req).reqs e.req).inUse = true
      rw [self, same]
      exact carries.inUse
    · exact carries.batch
    · show ((d.setReq e.req req).reqs e.req).len = _
      rw [self, same]
      exact len
    · show ((d.setReq e.req req).reqs e.req).buf.take _ = _
      rw [self, same]
      exact carries.data
    · show ((d.setReq e.req req).reqs e.req).fileOff = _
      rw [self, same]
      exact carries.fileOff
    · show req.written = ((d.setReq e.req req).reqs e.req).written
      rw [self]
    · show req.written + (req.len - req.written) = _
      rw [same]
      dsimp only
      omega
    · show _ = ((d.setReq e.req req).reqs e.req).fileOff + req.written
      rw [self]
    · show b.written = req.written
      rw [same]
      dsimp only
      omega
  · rw [set]
    exact holds.file

theorem Holds.reapCompletion (holds : d.Holds base batches place) (here : d.sqes[j]? = some e) {res : Int}
    (completed : e.stage = .completed res) : (d.reapCompletion j e res).1.Holds base batches place := by
  obtain ⟨b, carries⟩ := holds.carries e (mem_of_getElem? here)
  obtain ⟨xs, ys, shape, rfl⟩ := KeyedList.split_of_getElem? here
  have progress := carries.progress
  unfold Progress at progress
  rw [completed] at progress
  have rest := carries.rest
  have start := carries.start
  have len := carries.len
  have few := holds.few
  have erased : d.sqes.eraseIdx xs.length = xs ++ ys := by
    rw [shape, eraseIdx_append_of_length_le le_rfl, Nat.sub_self, eraseIdx_cons_zero]
  have fewer : (xs ++ ys).length ≤ aofIoDepth := by
    rw [shape, length_append, length_cons] at few
    rw [length_append]
    omega
  have givenUp : AofDisk.Holds base (giveUp { d with sqes := xs ++ ys } e.req) batches place :=
    holds.remove shape rfl (by simp [giveUp, finish, AofDisk.setReq]) (fun i other => update_of_ne other ..) rfl rfl rfl
      (fun _ => rfl) (Or.inr rfl)
  unfold AofDisk.reapCompletion
  simp only [carries.inUse, Bool.true_eq_false, if_false, erased]
  by_cases negative : res < 0
  · rw [if_pos negative]
    exact givenUp
  rw [if_neg negative]
  obtain ⟨fits, written⟩ := progress (not_lt.mp negative)
  by_cases nothing : res = 0 ∧ (d.reqs e.req).written < (d.reqs e.req).len
  · rw [if_pos nothing]
    exact givenUp
  rw [if_neg nothing]
  by_cases short : (d.reqs e.req).written + res.toNat < (d.reqs e.req).len
  · have room : ∀ req, ¬ AofDisk.Full (AofDisk.setReq { d with sqes := xs ++ ys } e.req req) := fun _ => not_full fewer
    have sqe : ∀ req, AofDisk.getSqe (AofDisk.setReq { d with sqes := xs ++ ys } e.req req) =
        AofDisk.setReq { d with sqes := xs ++ ys } e.req req := fun _ => getSqe_eq fewer
    rw [if_pos short, sqe, if_neg (room _)]
    exact holds.resubmit shape carries fits written (by simp only [carries.inUse])
  · rw [if_neg short]
    refine holds.remove shape rfl (by simp [finish, AofDisk.setReq]) (fun i other => ?_) rfl rfl rfl id (Or.inl fun c there => ?_)
    · show update (update d.reqs e.req _) e.req _ i = d.reqs i
      rw [update_of_ne other, update_of_ne other]
    · rw [carries.batch] at there
      cases there
      omega

end Worker

end AICacheDB.AofDisk
