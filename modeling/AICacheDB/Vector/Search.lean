import AICacheDB.Vector.Graph

open CLib
open List hiding getElem?_eq_some_iff

namespace AICacheDB.KvsVector

variable {F : Type} [LT F] [LE F] [DecidableLT F] [DecidableLE F] (A : FloatOps F) {inst : KvsVector F}

def NoneBeats (inst : KvsVector F) (q : VectorQuery F) (level id : Nat) (s : F) : Prop :=
  ∀ e nbrs, inst.entry id = some e → e.neighbors[level]? = some nbrs → ∀ n ∈ nbrs, ¬ s < score A inst q n

def Leads {F : Type} (inst : KvsVector F) (level : Nat) (P : Nat → Prop) : Prop :=
  ∀ ⦃id e⦄, inst.entry id = some e → ∀ ⦃nbrs : List Nat⦄, e.neighbors[level]? = some nbrs → ∀ n ∈ nbrs, P n

omit [LT F] [LE F] [DecidableLT F] [DecidableLE F] in
theorem Linked.leads (linked : Linked inst) {level : Nat} : Leads inst level (OnLevel inst level) := by
  intro id e found nbrs list n member
  obtain ⟨f, entry, reaches, _⟩ := (linked found list).linked n member
  exact ⟨f, entry, reaches⟩

section Greedy

variable {q : VectorQuery F}

def higher (inst : KvsVector F) (q : VectorQuery F) (s : F) : Nat :=
  ((Finset.range inst.nextId).filter fun id => s < score A inst q id).card

theorem higher_le (s : F) : higher A inst q s ≤ inst.nextId := by
  have bound := Finset.card_filter_le (Finset.range inst.nextId) fun id => s < score A inst q id
  rwa [Finset.card_range] at bound

variable [FloatOrder F]

theorem greedyScan_spec (shape : GraphShape inst) (nbrs : List Nat) (current : Nat) (s : F) :
    ∃ current' s' changed, greedyScan A inst q nbrs current s = some (current', s', changed) ∧
      (∀ n ∈ nbrs, ¬ s' < score A inst q n) ∧ ((current' = current ∧ s' = s ∧ changed = false) ∨
        current' ∈ nbrs ∧ s' = score A inst q current' ∧ s < s' ∧ changed = true) := by
  have fold : ∀ (nbrs : List Nat) (best : Nat × F × Bool), ∃ best', nbrs.foldlM (fun best nid => do
        let score ← idScore A inst nid q
        some (if best.2.1 < score then (nid, score, true) else best)) best = some best' ∧
      (∀ n ∈ nbrs, ¬ best'.2.1 < score A inst q n) ∧
      (best' = best ∨ best'.1 ∈ nbrs ∧ best'.2.1 = score A inst q best'.1 ∧ best.2.1 < best'.2.1 ∧ best'.2.2 = true) := by
    intro nbrs
    induction nbrs with
    | nil => exact fun best => ⟨best, rfl, by simp, .inl rfl⟩
    | cons nid nbrs ih =>
      intro best
      by_cases better : best.2.1 < score A inst q nid
      · obtain ⟨best', ran, top, origin⟩ := ih (nid, score A inst q nid, true)
        refine ⟨best', ?_, ?_, .inr ?_⟩
        · rw [foldlM_cons, idScore_eq A shape.live]
          simpa [better] using ran
        · intro n member
          rcases mem_cons.mp member with rfl | later
          · rcases origin with rfl | ⟨_, _, higher, _⟩
            · exact FloatOrder.irrefl _
            · exact fun back => FloatOrder.irrefl _ (FloatOrder.trans higher back)
          · exact top n later
        · rcases origin with rfl | ⟨member, own, higher, flag⟩
          · exact ⟨by simp, rfl, better, rfl⟩
          · exact ⟨by simp [member], own, FloatOrder.trans better higher, flag⟩
      · obtain ⟨best', ran, top, origin⟩ := ih best
        refine ⟨best', ?_, ?_, ?_⟩
        · rw [foldlM_cons, idScore_eq A shape.live]
          simpa [better] using ran
        · intro n member
          rcases mem_cons.mp member with rfl | later
          · rcases origin with rfl | ⟨_, _, higher, _⟩
            · exact better
            · exact fun back => better (FloatOrder.trans higher back)
          · exact top n later
        · rcases origin with same | ⟨member, rest⟩
          · exact .inl same
          · exact .inr ⟨by simp [member], rest⟩
  obtain ⟨⟨current', s', changed⟩, ran, top, origin⟩ := fold nbrs (current, s, false)
  refine ⟨current', s', changed, ran, top, ?_⟩
  rcases origin with same | moved
  · cases same
    exact .inl ⟨rfl, rfl, rfl⟩
  · exact .inr moved

theorem higher_lt {s : F} {id : Nat} (small : id < inst.nextId) (above : s < score A inst q id) :
    higher A inst q (score A inst q id) < higher A inst q s := by
  apply Finset.card_lt_card
  rw [Finset.ssubset_iff_of_subset]
  · exact ⟨id, by simp [small, above], by simp [FloatOrder.irrefl]⟩
  · intro id' member
    rw [Finset.mem_filter] at member ⊢
    exact ⟨member.1, FloatOrder.trans above member.2⟩

theorem hnswGreedyLoop_spec (shape : GraphShape inst) (level fuel : Nat) {current : Nat} (small : current < inst.nextId)
    (enough : higher A inst q (score A inst q current) < fuel) :
    ∃ r, hnswGreedyLoop A inst level q fuel current (score A inst q current) = some r ∧ r < inst.nextId ∧
      (r = current ∨ score A inst q current < score A inst q r) ∧ NoneBeats A inst q level r (score A inst q r) ∧
      (NoneBeats A inst q level current (score A inst q current) → r = current) ∧ ∀ P, Leads inst level P → P current → P r := by
  induction fuel generalizing current with
  | zero => omega
  | succ fuel ih =>
    obtain ⟨e, found⟩ := shape.live current small
    have inside : ¬ inst.nextId ≤ current := by omega
    cases list : e.neighbors[level]? with
    | none =>
      refine ⟨current, by simp [hnswGreedyLoop, inside, found, list], small, .inl rfl, fun e' nbrs found' list' => ?_, fun _ => rfl,
        fun _ _ start => start⟩
      rw [found] at found'
      cases found'
      rw [list] at list'
      cases list'
    | some nbrs =>
      have low : ¬ e.level < level := by
        have := shape.level_le found list
        omega
      obtain ⟨next, s, changed, scan, top, origin⟩ := greedyScan_spec A (q := q) shape nbrs current (score A inst q current)
      rcases origin with ⟨rfl, rfl, rfl⟩ | ⟨member, rfl, climbs, rfl⟩
      · refine ⟨next, ?_, small, .inl rfl, fun e' nbrs' found' list' => ?_, fun _ => rfl, fun _ _ start => start⟩
        · simp [hnswGreedyLoop, inside, found, list, low, scan]
        · rw [found] at found'
          cases found'
          rw [list] at list'
          cases list'
          exact top
      · have smallNext := shape.inRange found list next member
        have fewer := higher_lt A smallNext climbs
        obtain ⟨r, ran, smallR, origin, optimum, _, path⟩ := ih smallNext (by omega)
        refine ⟨r, ?_, smallR, .inr ?_, optimum, fun low => absurd climbs (low e nbrs found list next member),
          fun P leads _ => path P leads (leads found list next member)⟩
        · simp [hnswGreedyLoop, inside, found, list, low, scan, ran]
        · rcases origin with rfl | more
          · exact climbs
          · exact FloatOrder.trans climbs more

theorem hnswGreedy_spec (shape : GraphShape inst) (level : Nat) {ep : Nat} (small : ep < inst.nextId) :
    ∃ r, hnswGreedy A inst ep level q = some r ∧ r < inst.nextId ∧
      (r = ep ∨ score A inst q ep < score A inst q r) ∧ NoneBeats A inst q level r (score A inst q r) ∧
      (NoneBeats A inst q level ep (score A inst q ep) → r = ep) ∧ ∀ P, Leads inst level P → P ep → P r := by
  have bound : higher A inst q (score A inst q ep) ≤ inst.nextId := higher_le A _
  obtain ⟨r, ran, rest⟩ := hnswGreedyLoop_spec A (q := q) shape level (inst.nextId + 1) small (by omega)
  refine ⟨r, ?_, rest⟩
  simp [hnswGreedy, idScore_eq A shape.live, ran]

theorem greedyDescend_spec (shape : GraphShape inst) (low level : Nat) {ep : Nat} (small : ep < inst.nextId) :
    ∃ r, greedyDescend A inst q low level ep = some r ∧ r < inst.nextId ∧
      ((r = ep ∧ ∀ l, low < l → l ≤ level → NoneBeats A inst q l ep (score A inst q ep)) ∨
        score A inst q ep < score A inst q r) ∧
      ((∀ l, low < l → l ≤ level → NoneBeats A inst q l ep (score A inst q ep)) → r = ep) ∧
      (Linked inst → OnLevel inst level ep → OnLevel inst (min low level) r) := by
  induction level generalizing ep with
  | zero => exact ⟨ep, rfl, small, .inl ⟨rfl, fun l _ _ => by omega⟩, fun _ => rfl, fun _ on => on.mono (Nat.min_le_right _ _)⟩
  | succ level ih =>
    by_cases above : low < level + 1
    · obtain ⟨ep1, ran1, small1, origin, optimum, stays1, path⟩ := hnswGreedy_spec A (q := q) shape (level + 1) small
      obtain ⟨r, ran, smallR, rest, stays, on⟩ := ih small1
      refine ⟨r, by simp [greedyDescend, above, ran1, ran], smallR, ?_, fun low => ?_, fun linked start => ?_⟩
      · rcases origin with rfl | climbs
        · rcases rest with ⟨rfl, optima⟩ | more
          · refine .inl ⟨rfl, fun l high fits => ?_⟩
            by_cases top : l = level + 1
            · rw [top]
              exact optimum
            · exact optima l high (by omega)
          · exact .inr more
        · rcases rest with ⟨rfl, _⟩ | more
          · exact .inr climbs
          · exact .inr (FloatOrder.trans climbs more)
      · obtain rfl := stays1 (low (level + 1) above le_rfl)
        exact stays fun l high fits => low l high (by omega)
      · have on1 : OnLevel inst (level + 1) ep1 := path _ linked.leads start
        exact (on linked (on1.mono (Nat.le_succ level))).mono (by omega)
    · exact ⟨ep, by simp [greedyDescend, above], small, .inl ⟨rfl, fun l _ _ => by omega⟩, fun _ => rfl,
        fun _ on => on.mono (Nat.min_le_right _ _)⟩

end Greedy

section Layer

variable {q : VectorQuery F} {ef : Nat}

structure Found (inst : KvsVector F) (q : VectorQuery F) (ef : Nat) (items : List (Candidate F)) : Prop where
  fits : items.length ≤ ef
  own : ∀ c ∈ items, c.id < inst.nextId ∧ c.score = score A inst q c.id

variable {items : List (Candidate F)} {x : F}

theorem Found.add (found : Found A inst q ef items) {id : Nat} (small : id < inst.nextId) :
    Found A inst q ef (candidateAddSorted items ef id (score A inst q id)) := by
  refine ⟨candidateAddSorted_length found.fits _ _, fun c member => ?_⟩
  rcases candidateAddSorted_mem member with old | rfl
  · exact found.own c old
  · exact ⟨small, rfl⟩

def layerVisit (inst : KvsVector F) (q : VectorQuery F) (ef : Nat) (state : List (Candidate F) × List Nat) (nid : Nat) :
    List (Candidate F) × List Nat :=
  if inst.nextId ≤ nid ∨ nid ∈ state.2 then state
  else (if A.sentinel < score A inst q nid then candidateAddSorted state.1 ef nid (score A inst q nid) else state.1,
    nid :: state.2)

theorem layerScan_eq (shape : GraphShape inst) (nbrs : List Nat) (state : List (Candidate F) × List Nat) :
    layerScan A inst q ef nbrs state = some (nbrs.foldl (layerVisit A inst q ef) state) := by
  unfold layerScan
  induction nbrs generalizing state with
  | nil => rfl
  | cons nid nbrs ih =>
    rw [foldlM_cons, foldl_cons, idScore_eq A shape.live, layerVisit]
    by_cases skip : inst.nextId ≤ nid ∨ nid ∈ state.2
    · rw [if_pos skip, if_pos skip]
      exact ih state
    · rw [if_neg skip, if_neg skip]
      exact ih _

variable {state : List (Candidate F) × List Nat} {nbrs : List Nat}

theorem layerVisit_found (found : Found A inst q ef state.1) (nid : Nat) :
    Found A inst q ef (layerVisit A inst q ef state nid).1 := by
  unfold layerVisit
  by_cases skip : inst.nextId ≤ nid ∨ nid ∈ state.2
  · rwa [if_pos skip]
  · rw [if_neg skip]
    simp only [not_or, not_le] at skip
    by_cases high : A.sentinel < score A inst q nid
    · rw [if_pos high]
      exact found.add A skip.1
    · rwa [if_neg high]

theorem layerFold_found (found : Found A inst q ef state.1) (nbrs : List Nat) :
    Found A inst q ef (nbrs.foldl (layerVisit A inst q ef) state).1 := by
  induction nbrs generalizing state with
  | nil => exact found
  | cons nid nbrs ih => exact ih (layerVisit_found A found nid)

theorem layerFold_unchanged (low : ∀ n ∈ nbrs, ¬ A.sentinel < score A inst q n)
    (state : List (Candidate F) × List Nat) : (nbrs.foldl (layerVisit A inst q ef) state).1 = state.1 := by
  induction nbrs generalizing state with
  | nil => rfl
  | cons nid nbrs ih =>
    rw [foldl_cons, ih fun n member => low n (by simp [member])]
    unfold layerVisit
    by_cases skip : inst.nextId ≤ nid ∨ nid ∈ state.2
    · rw [if_pos skip]
    · rw [if_neg skip, if_neg (low nid (by simp))]

theorem layerFold_leads {P : Nat → Prop} (leads : ∀ n ∈ nbrs, P n)
    (start : ∀ c ∈ state.1, P c.id) : ∀ c ∈ (nbrs.foldl (layerVisit A inst q ef) state).1, P c.id := by
  induction nbrs generalizing state with
  | nil => exact start
  | cons nid nbrs ih =>
    apply ih fun n member => leads n (mem_cons_of_mem _ member)
    unfold layerVisit
    by_cases skip : inst.nextId ≤ nid ∨ nid ∈ state.2
    · rwa [if_pos skip]
    · rw [if_neg skip]
      by_cases high : A.sentinel < score A inst q nid
      · rw [if_pos high]
        intro c member
        rcases candidateAddSorted_mem member with old | rfl
        · exact start c old
        · exact leads nid mem_cons_self
      · rwa [if_neg high]

theorem searchLayerLoop_first (shape : GraphShape inst) (level fuel ep : Nat) {e : VectorEntry F} (entry : inst.entry ep = some e)
    (list : e.neighbors[level]? = some nbrs) (s : F) : searchLayerLoop A inst q ef level (fuel + 1) 0 ([⟨ep, s⟩], [ep]) =
      searchLayerLoop A inst q ef level fuel 1 (nbrs.foldl (layerVisit A inst q ef) ([⟨ep, s⟩], [ep])) := by
  have low : ¬ e.level < level := by
    have := shape.level_le entry list
    omega
  simp [searchLayerLoop, entry, list, low, layerScan_eq A shape]

variable [FloatOrder F]

theorem Found.hasAbove_add (found : Found A inst q ef items) (room : 0 < ef) {id : Nat}
    (high : x < score A inst q id) : HasAbove x (candidateAddSorted items ef id (score A inst q id)) := by
  apply hasAbove_new room high
  intro c member same
  rw [(found.own c member).2, same]

theorem layerVisit_above (found : Found A inst q ef state.1)
    (above : HasAbove x state.1) (nid : Nat) : HasAbove x (layerVisit A inst q ef state nid).1 := by
  unfold layerVisit
  by_cases skip : inst.nextId ≤ nid ∨ nid ∈ state.2
  · rwa [if_pos skip]
  · rw [if_neg skip]
    by_cases high : A.sentinel < score A inst q nid
    · rw [if_pos high]
      exact above.add found.fits nid (FloatOrder.ordered_of_lt high)
    · rwa [if_neg high]

theorem layerFold_above (found : Found A inst q ef state.1)
    (above : HasAbove x state.1) (nbrs : List Nat) : HasAbove x (nbrs.foldl (layerVisit A inst q ef) state).1 := by
  induction nbrs generalizing state with
  | nil => exact above
  | cons nid nbrs ih => exact ih (layerVisit_found A found nid) (layerVisit_above A found above nid)

theorem layerFold_reaches (found : Found A inst q ef state.1) (room : 0 < ef)
    {n : Nat} (member : n ∈ nbrs) (small : n < inst.nextId) (fresh : n ∉ state.2)
    (high : A.sentinel < score A inst q n) : HasAbove A.sentinel (nbrs.foldl (layerVisit A inst q ef) state).1 := by
  induction nbrs generalizing state with
  | nil => cases member
  | cons nid nbrs ih =>
    by_cases here : n = nid
    · subst here
      apply layerFold_above A (layerVisit_found A found n)
      have open' : ¬ (inst.nextId ≤ n ∨ n ∈ state.2) := by
        simp only [not_or, not_le]
        exact ⟨small, fresh⟩
      rw [layerVisit, if_neg open', if_pos high]
      exact found.hasAbove_add A room high
    · apply ih (layerVisit_found A found nid) ((mem_cons.mp member).resolve_left here)
      unfold layerVisit
      by_cases skip : inst.nextId ≤ nid ∨ nid ∈ state.2
      · rwa [if_pos skip]
      · rw [if_neg skip]
        simpa [here] using fresh

theorem searchLayerLoop_spec (shape : GraphShape inst) (level fuel cursor : Nat)
    (found : Found A inst q ef state.1) (start : cursor ≤ ef) (enough : ef < cursor + fuel) :
    ∃ items, searchLayerLoop A inst q ef level fuel cursor state = some items ∧ Found A inst q ef items ∧
      (∀ x, HasAbove x state.1 → HasAbove x items) ∧
      ∀ P, Leads inst level P → (∀ c ∈ state.1, P c.id) → ∀ c ∈ items, P c.id := by
  induction fuel generalizing cursor state with
  | zero => omega
  | succ fuel ih =>
    cases here : state.1[cursor]? with
    | none => exact ⟨state.1, by simp only [searchLayerLoop, here], found, fun _ above => above, fun _ _ start => start⟩
    | some c =>
      have inside := (List.getElem?_eq_some_iff.mp here).1
      have fits := found.fits
      have small := (found.own c (mem_of_getElem? here)).1
      obtain ⟨e, entry⟩ := shape.live c.id small
      cases list : e.neighbors[level]? with
      | none =>
        obtain ⟨items, ran, rest⟩ := ih (cursor + 1) found (by omega) (by omega)
        exact ⟨items, by simp [searchLayerLoop, here, entry, list, ran], rest⟩
      | some nbrs =>
        have low : ¬ e.level < level := by
          have := shape.level_le entry list
          omega
        obtain ⟨items, ran, found', above', path⟩ := ih (cursor + 1) (layerFold_found A found nbrs) (by omega) (by omega)
        refine ⟨items, ?_, found', fun x above => above' x (layerFold_above A found above nbrs),
          fun P leads start => path P leads (layerFold_leads A (leads entry list) start)⟩
        simp [searchLayerLoop, here, entry, list, low, layerScan_eq A shape, ran]

theorem hnswSearchLayer_spec (shape : GraphShape inst) (room : 0 < ef) (level : Nat) {ep : Nat} (small : ep < inst.nextId) :
    ∃ items, hnswSearchLayer A .ok inst q ep ef level = some (some items) ∧ Found A inst q ef items ∧
      (A.sentinel < score A inst q ep → HasAbove A.sentinel items) ∧
      (¬ NoneBeats A inst q level ep A.sentinel → HasAbove A.sentinel items) ∧
      (NoneBeats A inst q level ep A.sentinel → items = [⟨ep, score A inst q ep⟩]) ∧
      ∀ P, Leads inst level P → P ep → ∀ c ∈ items, P c.id := by
  have first : Found A inst q ef [⟨ep, score A inst q ep⟩] := by
    refine ⟨room, fun c member => ?_⟩
    rw [mem_singleton.mp member]
    exact ⟨small, rfl⟩
  have loop : ∃ items, searchLayerLoop A inst q ef level (ef + 1) 0 ([⟨ep, score A inst q ep⟩], [ep]) = some items ∧
      Found A inst q ef items ∧ (∀ x, HasAbove x [⟨ep, score A inst q ep⟩] → HasAbove x items) ∧
      ∀ P, Leads inst level P → (∀ c ∈ [(⟨ep, score A inst q ep⟩ : Candidate F)], P c.id) → ∀ c ∈ items, P c.id :=
    searchLayerLoop_spec A shape level (ef + 1) 0 first (Nat.zero_le _) (by omega)
  obtain ⟨items, ran, found, above, path⟩ := loop
  have call : hnswSearchLayer A .ok inst q ep ef level = some (some items) := by
    have real : ef ≠ 0 := by omega
    simp [hnswSearchLayer, real, small, idScore_eq A shape.live, candidateAddSorted_nil room, ran]
  have direct : A.sentinel < score A inst q ep → HasAbove A.sentinel items :=
    fun high => above _ ⟨_, mem_singleton_self _, high⟩
  obtain ⟨e, entry⟩ := shape.live ep small
  refine ⟨items, call, found, direct, fun some' => ?_, fun none' => ?_, fun P leads start => path P leads (by simpa using start)⟩
  · by_cases highEp : A.sentinel < score A inst q ep
    · exact direct highEp
    · simp only [NoneBeats, not_forall, not_not] at some'
      obtain ⟨e', nbrs, entry', list, n, member, high⟩ := some'
      have apart : n ≠ ep := fun same => highEp (same ▸ high)
      rw [searchLayerLoop_first A shape level ef ep entry' list] at ran
      have start : Found A inst q ef (nbrs.foldl (layerVisit A inst q ef) ([⟨ep, score A inst q ep⟩], [ep])).1 :=
        layerFold_found A first nbrs
      obtain ⟨items', ran', _, above', _⟩ := searchLayerLoop_spec A shape level ef 1 start room (by omega)
      rw [ran] at ran'
      cases ran'
      exact above' _ (layerFold_reaches A first room member (shape.inRange entry' list n member) (by simpa using apart) high)
  · cases list : e.neighbors[level]? with
    | none =>
      simp only [searchLayerLoop, getElem?_cons_zero, entry, list, Option.bind_eq_bind, Option.bind_some] at ran
      obtain ⟨ef', rfl⟩ := Nat.exists_eq_add_one_of_ne_zero (Nat.ne_of_gt room)
      simp only [searchLayerLoop] at ran
      simpa using ran.symm
    | some nbrs =>
      rw [searchLayerLoop_first A shape level ef ep entry list] at ran
      have same : (nbrs.foldl (layerVisit A inst q ef) ([⟨ep, score A inst q ep⟩], [ep])).1 = [⟨ep, score A inst q ep⟩] :=
        layerFold_unchanged A (none' e nbrs entry list) _
      obtain ⟨ef', rfl⟩ := Nat.exists_eq_add_one_of_ne_zero (Nat.ne_of_gt room)
      simp only [searchLayerLoop, same] at ran
      simpa using ran.symm

end Layer

end AICacheDB.KvsVector
