import Mathlib.Data.Finset.Card

/-! A recursive walk of a finite graph that carries the vertices on its path. It goes through the members of a
vertex in order, may go down from a member, and does not enter a vertex of its path again. -/

namespace Flow

/-- edges lead from `k` to a vertex that lies on a cycle -/
def ReachesCycle {K : Type*} (E : K → K → Prop) (k : K) : Prop := ∃ x, Relation.ReflTransGen E k x ∧ Relation.TransGen E x x

theorem ReachesCycle.next {K : Type*} {E : K → K → Prop} {k : K} (h : ReachesCycle E k) : ∃ k', E k k' ∧ ReachesCycle E k' := by
  obtain ⟨x, hkx, hx⟩ := h
  rcases Relation.ReflTransGen.cases_head hkx with rfl | ⟨k', hk', hrest⟩
  · obtain ⟨k', hk', hrest⟩ := Relation.TransGen.head'_iff.mp hx
    exact ⟨k', hk', k, hrest, hx⟩
  · exact ⟨k', hk', x, hrest, hx⟩

/-- a way to a cycle only takes steps that can be followed -/
theorem ReachesCycle.live {K : Type*} {E : K → K → Prop} {k : K} (h : ReachesCycle E k) :
    ReachesCycle (fun a b => E a b ∧ ∃ c, E b c) k := by
  obtain ⟨x, hkx, hx⟩ := h
  have onward : ∀ a, Relation.ReflTransGen E a x → ∃ c, E a c := by
    intro a ha
    have reaches : ReachesCycle E a := ⟨x, ha, hx⟩
    exact reaches.next.imp fun _ => And.left
  have path : ∀ a, Relation.ReflTransGen E a x → Relation.ReflTransGen (fun a b => E a b ∧ ∃ c, E b c) a x := by
    intro a ha
    induction ha using Relation.ReflTransGen.head_induction_on with
    | refl => exact .refl
    | head hab hbx ih => exact ih.head ⟨hab, onward _ hbx⟩
  obtain ⟨y, hxy, hyx⟩ := Relation.TransGen.head'_iff.mp hx
  exact ⟨x, path k hkx, Relation.TransGen.head' ⟨hxy, onward y hyx⟩ (path y hyx)⟩

/-- two relations that agree on a closed set have the same cycles in it -/
theorem ReachesCycle.congr {K : Type*} {E E' : K → K → Prop} {C : Set K} {k : K}
    (hE : ∀ a ∈ C, ∀ b, E a b → E' a b ∧ b ∈ C) (hk : k ∈ C) (h : ReachesCycle E k) : ReachesCycle E' k := by
  have path : ∀ a ∈ C, ∀ b, Relation.ReflTransGen E a b → Relation.ReflTransGen E' a b ∧ b ∈ C := by
    intro a ha b hab
    induction hab with
    | refl => exact ⟨.refl, ha⟩
    | tail _ hbc ih => exact ⟨ih.1.tail (hE _ ih.2 _ hbc).1, (hE _ ih.2 _ hbc).2⟩
  obtain ⟨x, hkx, hx⟩ := h
  obtain ⟨hkx', hxC⟩ := path k hk x hkx
  obtain ⟨y, hxy, hyx⟩ := Relation.TransGen.head'_iff.mp hx
  obtain ⟨hxy', hyC⟩ := hE x hxC y hxy
  exact ⟨x, hkx', .head' hxy' (path y hyC x hyx).1⟩

/-- what the walk does with one member of a vertex -/
inductive Move (K A : Type*) where
  | skip
  | found (a : A)
  /-- `closes`: the answer for a target on the path; `otherwise`: the one when nothing is found below -/
  | down (target : K) (closes otherwise : Option A)

structure Descent (K M A σ R : Type*) where
  vertices : Finset K
  members : K → Option (List M)
  finite : ∀ k, (members k).isSome → k ∈ vertices
  move : K → M → Move K A
  /-- what the walk hands down from a member -/
  next : σ → K → M → σ
  report : σ → K → M → A → R

namespace Descent

variable {K M A σ R : Type*} [DecidableEq K]

theorem left_lt {vertices : Finset K} {active : List K} {k : K} (hk : k ∈ vertices) (h : k ∉ active) :
    (vertices.filter (· ∉ k :: active)).card < (vertices.filter (· ∉ active)).card := by
  refine Finset.card_lt_card ⟨fun x hx => ?_, fun hsub => ?_⟩
  · simp only [Finset.mem_filter, List.mem_cons, not_or] at hx ⊢
    exact ⟨hx.1, hx.2.2⟩
  · have hmem := hsub (Finset.mem_filter.mpr ⟨hk, h⟩)
    exact (Finset.mem_filter.mp hmem).2 List.mem_cons_self

/-- the answer at one member, when `below` answers for the walk below it -/
def outcome (report : A → R) (below : Option R → K → Option R) : Move K A → Option R
  | .skip => none
  | .found a => some (report a)
  | .down target closes otherwise => (below (closes.map report) target).or (otherwise.map report)

/-- the first answer below `k`; `closing` is the answer when `k` is on the path already -/
def search (w : Descent K M A σ R) (s : σ) (active : List K) (closing : Option R) (k : K) : Option R :=
  if _h : k ∈ active then closing
  else
    match _hm : w.members k with
    | none => none
    | some members => members.findSome? fun m => outcome (w.report s k m)
      (fun closing target => w.search (w.next s k m) (k :: active) closing target) (w.move k m)
termination_by (w.vertices.filter (· ∉ active)).card
decreasing_by exact left_lt (w.finite k (by rw [_hm]; rfl)) _h

/-- the walk can go from `k` down to `k'` -/
def Follows (w : Descent K M A σ R) (k k' : K) : Prop :=
  ∃ members, w.members k = some members ∧ ∃ m ∈ members, ∃ closes otherwise, w.move k m = .down k' closes otherwise

/-- a member of `k` is an answer by itself -/
def Hits (w : Descent K M A σ R) (k : K) : Prop :=
  ∃ members, w.members k = some members ∧ ∃ m ∈ members,
    (∃ a, w.move k m = .found a) ∨ ∃ target closes a, w.move k m = .down target closes (some a)

variable {w : Descent K M A σ R} {s : σ} {active : List K} {closing : Option R} {k : K}

theorem search_of_mem (h : k ∈ active) : w.search s active closing k = closing := by
  unfold search
  rw [dif_pos h]

omit [DecidableEq K] in
theorem outcome_isSome {report : A → R} {below : Option R → K → Option R} {move : Move K A} :
    (outcome report below move).isSome ↔
      ((∃ a, move = .found a) ∨ ∃ target closes a, move = .down target closes (some a)) ∨
      ∃ target closes otherwise, move = .down target closes otherwise ∧ (below (closes.map report) target).isSome := by
  cases move with
  | skip => simp [outcome]
  | found a => simp [outcome]
  | down target closes otherwise =>
    rw [outcome, Option.isSome_or, Bool.or_eq_true]
    constructor
    · rintro (h | h)
      · exact .inr ⟨target, closes, otherwise, rfl, h⟩
      · cases otherwise with
        | some a => exact .inl (.inr ⟨target, closes, a, rfl⟩)
        | none => exact absurd h (by simp)
    · rintro ((⟨_, h⟩ | ⟨_, _, _, h⟩) | ⟨_, _, _, h, hbelow⟩)
      · cases h
      · cases h
        exact .inr rfl
      · cases h
        exact .inl hbelow

/-- what one visit finds: an answer at a member of `k`, or one below it -/
theorem search_isSome (h : k ∉ active) : (w.search s active closing k).isSome ↔ w.Hits k ∨
    ∃ members, w.members k = some members ∧ ∃ m ∈ members, ∃ target closes otherwise,
      w.move k m = .down target closes otherwise ∧
      (w.search (w.next s k m) (k :: active) (closes.map (w.report s k m)) target).isSome := by
  rw [search, dif_neg h]
  unfold Hits
  split
  · rename_i hm
    simp [hm]
  · rename_i members hm
    simp only [hm, Option.some.injEq, exists_eq_left', List.findSome?_isSome_iff, outcome_isSome]
    constructor
    · rintro ⟨m, hmem, h | h⟩
      · exact .inl ⟨m, hmem, h⟩
      · exact .inr ⟨m, hmem, h⟩
    · rintro (⟨m, hmem, h⟩ | ⟨m, hmem, h⟩)
      · exact ⟨m, hmem, .inl h⟩
      · exact ⟨m, hmem, .inr h⟩

/-- a path from `k` is empty, or leaves `k` for the last time -/
theorem last_exit {E : K → K → Prop} {x : K} (h : Relation.ReflTransGen E k x) :
    x = k ∨ ∃ k', E k k' ∧ k' ≠ k ∧ Relation.ReflTransGen (fun a b => E a b ∧ b ≠ k) k' x := by
  induction h with
  | refl => exact .inl rfl
  | @tail b c _ hbc ih =>
    by_cases hc : c = k
    · exact .inl hc
    · rcases ih with rfl | ⟨k', hk', hne, hp⟩
      · exact .inr ⟨c, hbc, hc, .refl⟩
      · exact .inr ⟨k', hk', hne, hp.tail ⟨hbc, hc⟩⟩

/-- induction on the vertices that are not on the path -/
theorem path_induction {motive : List K → K → Prop} (w : Descent K M A σ R)
    (step : ∀ active k, (∀ k', k ∉ active → (w.members k).isSome → motive (k :: active) k') → motive active k)
    (active : List K) (k : K) : motive active k := by
  induction hn : (w.vertices.filter (· ∉ active)).card using Nat.strong_induction_on generalizing active k with
  | _ n ih =>
    refine step active k fun k' hk hm => ih _ ?_ (k :: active) k' rfl
    rw [← hn]
    exact left_lt (w.finite k hm) hk

section Open

variable (hopen : ∀ {k m target closes otherwise}, w.move k m = .down target closes otherwise → closes = none)

include hopen

theorem search_sound (h : (w.search s active none k).isSome) : ∃ x, Relation.ReflTransGen w.Follows k x ∧ w.Hits x := by
  induction active, k using w.path_induction generalizing s with
  | step active k ih =>
    by_cases hk : k ∈ active
    · rw [search_of_mem hk] at h
      exact absurd h (by simp)
    · rcases (search_isSome hk).mp h with hhit | ⟨members, hm, m, hmem, target, closes, otherwise, hmove, hfound⟩
      · exact ⟨k, .refl, hhit⟩
      · obtain rfl := hopen hmove
        obtain ⟨x, hx, hhit⟩ := ih target hk (by rw [hm]; rfl) hfound
        exact ⟨x, hx.head ⟨members, hm, m, hmem, _, _, hmove⟩, hhit⟩

theorem search_complete {x : K} (hp : Relation.ReflTransGen (fun a b => w.Follows a b ∧ b ∉ active) k x)
    (hk : k ∉ active) (hhit : w.Hits x) : (w.search s active none k).isSome := by
  induction active, k using w.path_induction generalizing s with
  | step active k ih =>
    rw [search_isSome hk]
    rcases last_exit hp with rfl | ⟨k', ⟨⟨members, hm, m, hmem, closes, otherwise, hmove⟩, hk'⟩, hne, hrest⟩
    · exact .inl hhit
    · obtain rfl := hopen hmove
      refine .inr ⟨members, hm, m, hmem, k', _, otherwise, hmove, ih k' hk (by rw [hm]; rfl) ?_ ?_⟩
      · refine hrest.lift id fun a b hab => ⟨hab.1.1, ?_⟩
        rw [List.mem_cons, not_or]
        exact ⟨hab.2, hab.1.2⟩
      · rw [List.mem_cons, not_or]
        exact ⟨hne, hk'⟩

/-- A walk for which a vertex of the path is no answer finds every member that is one. -/
theorem search_isSome_iff : (w.search s [] none k).isSome ↔ ∃ x, Relation.ReflTransGen w.Follows k x ∧ w.Hits x := by
  constructor
  · exact search_sound hopen
  · rintro ⟨x, hp, hhit⟩
    exact search_complete hopen (hp.lift id fun a b hab => ⟨hab, List.not_mem_nil⟩) List.not_mem_nil hhit

end Open

section Closing

variable (hclose : ∀ {k m target closes otherwise}, w.move k m = .down target closes otherwise → closes.isSome)
  (hno : ∀ k, ¬ w.Hits k)

include hno in
theorem search_cycle_sound (h : (w.search s active closing k).isSome) (hk : k ∉ active) :
    ∃ x, Relation.ReflTransGen w.Follows k x ∧ (Relation.TransGen w.Follows x x ∨ ∃ a ∈ active, w.Follows x a) := by
  induction active, k using w.path_induction generalizing s closing with
  | step active k ih =>
    obtain ⟨members, hm, m, hmem, target, closes, otherwise, hmove, hfound⟩ :=
      ((search_isSome hk).mp h).resolve_left (hno k)
    have hfollows : w.Follows k target := ⟨members, hm, m, hmem, _, _, hmove⟩
    by_cases ht : target ∈ k :: active
    · rcases List.mem_cons.mp ht with rfl | ht
      · exact ⟨target, .refl, .inl (.single hfollows)⟩
      · exact ⟨k, .refl, .inr ⟨target, ht, hfollows⟩⟩
    · obtain ⟨x, hx, hcycle | ⟨a, ha, hxa⟩⟩ := ih target hk (by rw [hm]; rfl) hfound ht
      · exact ⟨x, hx.head hfollows, .inl hcycle⟩
      · rcases List.mem_cons.mp ha with rfl | ha
        · exact ⟨a, .refl, .inl ((Relation.TransGen.head' hfollows hx).tail hxa)⟩
        · exact ⟨x, hx.head hfollows, .inr ⟨a, ha, hxa⟩⟩

include hclose

theorem search_cycle_complete (h : ReachesCycle w.Follows k) (hc : k ∈ active → closing.isSome) :
    (w.search s active closing k).isSome := by
  induction active, k using w.path_induction generalizing s closing with
  | step active k ih =>
    by_cases hk : k ∈ active
    · rw [search_of_mem hk]
      exact hc hk
    · obtain ⟨k', ⟨members, hm, m, hmem, closes, otherwise, hmove⟩, hk'⟩ := h.next
      exact (search_isSome hk).mpr (.inr ⟨members, hm, m, hmem, k', _, otherwise, hmove,
        ih k' hk (by rw [hm]; rfl) hk' fun _ => by simpa using hclose hmove⟩)

include hno

/-- A walk whose only answers are vertices of its path finds out whether it can go round. -/
theorem search_cycle_iff : (w.search s [] closing k).isSome ↔ ReachesCycle w.Follows k := by
  constructor
  · intro h
    obtain ⟨x, hx, hcycle | ⟨a, ha, -⟩⟩ := search_cycle_sound hno h List.not_mem_nil
    · exact ⟨x, hx, hcycle⟩
    · exact absurd ha List.not_mem_nil
  · exact fun h => search_cycle_complete hclose h fun hk => absurd hk List.not_mem_nil

end Closing

end Descent

end Flow
