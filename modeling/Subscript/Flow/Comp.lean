import Mathlib.Data.List.Basic

/-! Computations with many runs, as relations: from a state, the states, results and events that a run can
have. Programs are put together from them as in a monad, and `Triple` gives the rules of pre- and
postconditions: under an assumption on the events of the run, a guarantee on them and a condition on the
end of it. -/

namespace Flow

/-- a run ends with a value, or it leaves what is still to run -/
inductive Result (κ α : Type) where
  | done (a : α)
  | left (k : κ)

def Comp (σ ε κ α : Type) : Type := σ → σ → Result κ α → List ε → Prop

namespace Comp

variable {σ ε κ α β ι : Type}

def ret (a : α) : Comp σ ε κ α := fun s s' r t => s' = s ∧ r = .done a ∧ t = []

def leave (k : κ) : Comp σ ε κ α := fun s s' r t => s' = s ∧ r = .left k ∧ t = []

def bind (c : Comp σ ε κ α) (f : α → Comp σ ε κ β) : Comp σ ε κ β := fun s s' r t =>
  (∃ k, c s s' (.left k) t ∧ r = .left k) ∨
    ∃ a s₁ t₁ t₂, c s s₁ (.done a) t₁ ∧ f a s₁ s' r t₂ ∧ t = t₁ ++ t₂

instance : Monad (Comp σ ε κ) where
  pure := ret
  bind := bind

def get : Comp σ ε κ σ := fun s s' r t => s' = s ∧ r = .done s ∧ t = []

def modify (f : σ → σ) : Comp σ ε κ Unit := fun s s' r t => s' = f s ∧ r = .done () ∧ t = []

def emit (e : ε) : Comp σ ε κ Unit := fun s s' r t => s' = s ∧ r = .done () ∧ t = [e]

/-- any one of the computations -/
def choose (c : ι → Comp σ ε κ α) : Comp σ ε κ α := fun s s' r t => ∃ i, c i s s' r t

/-- the same with other events -/
def mapEvents (f : ε → ε) (c : Comp σ ε κ α) : Comp σ ε κ α := fun s s' r t =>
  ∃ t₀, c s s' r t₀ ∧ t = t₀.map f

/-- again and again, as long as the answer is yes -/
inductive Loop (c : Comp σ ε κ Bool) : σ → σ → Result κ Unit → List ε → Prop where
  | exit {s s' : σ} {t : List ε} (h : c s s' (.done false) t) : Loop c s s' (.done ()) t
  | left {s s' : σ} {k : κ} {t : List ε} (h : c s s' (.left k) t) : Loop c s s' (.left k) t
  | again {s s₁ s' : σ} {r : Result κ Unit} {t₁ t₂ : List ε} (h : c s s₁ (.done true) t₁)
    (hrest : Loop c s₁ s' r t₂) : Loop c s s' r (t₁ ++ t₂)

def loop (c : Comp σ ε κ Bool) : Comp σ ε κ Unit := Loop c

/-- goes on with `f` however the computation ends -/
def after (c : Comp σ ε κ α) (f : Result κ α → Comp σ ε κ β) : Comp σ ε κ β := fun s s' r t =>
  ∃ r₁ s₁ t₁ t₂, c s s₁ r₁ t₁ ∧ f r₁ s₁ s' r t₂ ∧ t = t₁ ++ t₂

/-- puts back a part of the first state at the end -/
def within (back : σ → σ → σ) (c : Comp σ ε κ α) : Comp σ ε κ α := fun s s' r t =>
  ∃ s₁, c s s₁ r t ∧ s' = back s s₁

/-- a run from some state of its own -/
def apart (c : Comp σ ε κ α) : Comp σ ε κ Unit := fun s s' r t =>
  s' = s ∧ r = .done () ∧ ∃ s₀ s₁ r₁, c s₀ s₁ r₁ t

variable {c : Comp σ ε κ α} {f : α → Comp σ ε κ β} {s s₁ s' : σ} {a : α} {k : κ} {r : Result κ β} {t t₁ t₂ : List ε}

theorem run_bind (h : c s s₁ (.done a) t₁) (hf : f a s₁ s' r t₂) : (c >>= f) s s' r (t₁ ++ t₂) :=
  .inr ⟨a, s₁, t₁, t₂, h, hf, rfl⟩

theorem run_silent (h : c s s₁ (.done a) []) (hf : f a s₁ s' r t) : (c >>= f) s s' r t := run_bind h hf

theorem run_bind_left (h : c s s' (.left k) t) : (c >>= f) s s' (.left k) t := .inl ⟨k, h, rfl⟩

theorem run_pure (a : α) (s : σ) : (pure a : Comp σ ε κ α) s s (.done a) [] := ⟨rfl, rfl, rfl⟩

end Comp

section Triple

variable {σ ε κ α β ι : Type}

def Result.Post (Q : α → σ → Prop) (E : κ → σ → Prop) : Result κ α → σ → Prop
  | .done a, s => Q a s
  | .left k, s => E k s

/-- `A` is assumed of every event, `G` guaranteed -/
def Triple (A G : ε → Prop) (P : σ → Prop) (c : Comp σ ε κ α) (Q : α → σ → Prop) (E : κ → σ → Prop) : Prop :=
  ∀ ⦃s s' r t⦄, P s → c s s' r t → (∀ e ∈ t, A e) → (∀ e ∈ t, G e) ∧ r.Post Q E s'

variable {A G : ε → Prop} {P P' : σ → Prop} {Q : α → σ → Prop} {R : β → σ → Prop} {E : κ → σ → Prop}
  {c : Comp σ ε κ α}

namespace Triple

theorem ret {a : α} (h : ∀ s, P s → Q a s) : Triple A G P (pure a : Comp σ ε κ α) Q E := by
  rintro s s' r t hs ⟨rfl, rfl, rfl⟩ -
  exact ⟨by simp, h s' hs⟩

theorem leave {k : κ} (h : ∀ s, P s → E k s) : Triple A G P (Comp.leave k : Comp σ ε κ α) Q E := by
  rintro s s' r t hs ⟨rfl, rfl, rfl⟩ -
  exact ⟨by simp, h s' hs⟩

theorem get {Q : σ → σ → Prop} (h : ∀ s, P s → Q s s) : Triple A G P (Comp.get : Comp σ ε κ σ) Q E := by
  rintro s s' r t hs ⟨rfl, rfl, rfl⟩ -
  exact ⟨by simp, h s' hs⟩

theorem modify {f : σ → σ} {Q : Unit → σ → Prop} (h : ∀ s, P s → Q () (f s)) :
    Triple A G P (Comp.modify f : Comp σ ε κ Unit) Q E := by
  rintro s s' r t hs ⟨rfl, rfl, rfl⟩ -
  exact ⟨by simp, h s hs⟩

theorem emit {e : ε} {Q : Unit → σ → Prop} (h : ∀ s, P s → A e → G e ∧ Q () s) :
    Triple A G P (Comp.emit e : Comp σ ε κ Unit) Q E := by
  rintro s s' r t hs ⟨rfl, rfl, rfl⟩ hA
  obtain ⟨hG, hQ⟩ := h s' hs (hA e (by simp))
  exact ⟨by simpa using hG, hQ⟩

theorem bind {f : α → Comp σ ε κ β} (hc : Triple A G P c Q E) (hf : ∀ a, Triple A G (Q a) (f a) R E) :
    Triple A G P (c >>= f) R E := by
  rintro s s' r t hs (⟨k, hk, rfl⟩ | ⟨a, s₁, t₁, t₂, h₁, h₂, rfl⟩) hA
  · exact hc hs hk hA
  · obtain ⟨hA₁, hA₂⟩ := List.forall_mem_append.mp hA
    obtain ⟨hG₁, hQ⟩ := hc hs h₁ hA₁
    obtain ⟨hG₂, hR⟩ := hf a hQ h₂ hA₂
    exact ⟨List.forall_mem_append.mpr ⟨hG₁, hG₂⟩, hR⟩

theorem choose {c : ι → Comp σ ε κ α} (h : ∀ i, Triple A G P (c i) Q E) : Triple A G P (Comp.choose c) Q E := by
  rintro s s' r t hs ⟨i, hi⟩ hA
  exact h i hs hi hA

theorem mapEvents {f : ε → ε} (h : Triple (fun e => A (f e)) (fun e => G (f e)) P c Q E) :
    Triple A G P (Comp.mapEvents f c) Q E := by
  rintro s s' r t hs ⟨t₀, ht, rfl⟩ hA
  obtain ⟨hG, hQ⟩ := h hs ht (List.forall_mem_map.mp hA)
  exact ⟨List.forall_mem_map.mpr hG, hQ⟩

/-- the loop rule: what an answer of yes leaves is the precondition again -/
theorem loop {c : Comp σ ε κ Bool} {Q : Unit → σ → Prop}
    (h : Triple A G P c (fun b s => if b then P s else Q () s) E) : Triple A G P (Comp.loop c) Q E := by
  intro s s' r t hs hrun hA
  induction hrun with
  | exit hexit => exact h hs hexit hA
  | left hleft => exact h hs hleft hA
  | again hround hrest ih =>
    obtain ⟨hA₁, hA₂⟩ := List.forall_mem_append.mp hA
    obtain ⟨hG₁, hP⟩ := h hs hround hA₁
    obtain ⟨hG₂, hQ⟩ := ih hP hA₂
    exact ⟨List.forall_mem_append.mpr ⟨hG₁, hG₂⟩, hQ⟩

theorem after {f : Result κ α → Comp σ ε κ β} {E' : κ → σ → Prop} (hc : Triple A G P c Q E')
    (hf : ∀ r, Triple A G (r.Post Q E') (f r) R E) : Triple A G P (Comp.after c f) R E := by
  rintro s s' r t hs ⟨r₁, s₁, t₁, t₂, h₁, h₂, rfl⟩ hA
  obtain ⟨hA₁, hA₂⟩ := List.forall_mem_append.mp hA
  obtain ⟨hG₁, hQ⟩ := hc hs h₁ hA₁
  obtain ⟨hG₂, hR⟩ := hf r₁ hQ h₂ hA₂
  exact ⟨List.forall_mem_append.mpr ⟨hG₁, hG₂⟩, hR⟩

/-- the state at the start is known at the end -/
theorem within {back : σ → σ → σ}
    (h : ∀ s₀, P s₀ → Triple A G (fun s => s = s₀) c (fun a s => Q a (back s₀ s)) fun k s => E k (back s₀ s)) :
    Triple A G P (Comp.within back c) Q E := by
  rintro s s' r t hs ⟨s₁, hc, rfl⟩ hA
  obtain ⟨hG, hpost⟩ := h s hs rfl hc hA
  refine ⟨hG, ?_⟩
  cases r with
  | done a => exact hpost
  | left k => exact hpost

theorem apart {Q : Unit → σ → Prop} (h : Triple A G (fun _ => True) c (fun _ _ => True) fun _ _ => True)
    (hQ : ∀ s, P s → Q () s) : Triple A G P (Comp.apart c) Q E := by
  rintro s s' r t hs ⟨rfl, rfl, s₀, s₁, r₁, hc⟩ hA
  exact ⟨(h trivial hc hA).1, hQ s' hs⟩

/-- for each state to start from -/
theorem of_start (h : ∀ s₀, P s₀ → Triple A G (fun s => s = s₀) c Q E) : Triple A G P c Q E :=
  fun s _ _ _ hs hc hA => h s hs rfl hc hA

theorem pre (h : Triple A G P c Q E) (hP : ∀ s, P' s → P s) : Triple A G P' c Q E :=
  fun _ _ _ _ hs hc hA => h (hP _ hs) hc hA

theorem conseq {Q' : α → σ → Prop} {E' : κ → σ → Prop} (h : Triple A G P c Q E) (hP : ∀ s, P' s → P s)
    (hQ : ∀ a s, Q a s → Q' a s) (hE : ∀ k s, E k s → E' k s) : Triple A G P' c Q' E' := by
  intro s s' r t hs hc hA
  obtain ⟨hG, hpost⟩ := h (hP s hs) hc hA
  refine ⟨hG, ?_⟩
  cases r with
  | done a => exact hQ a s' hpost
  | left k => exact hE k s' hpost

theorem weaken {Q' : α → σ → Prop} {E' : κ → σ → Prop} (h : Triple A G P c Q E) (hQ : ∀ a s, Q a s → Q' a s)
    (hE : ∀ k s, E k s → E' k s) : Triple A G P c Q' E' :=
  h.conseq (fun _ => id) hQ hE

theorem post {Q' : α → σ → Prop} (h : Triple A G P c Q E) (hQ : ∀ a s, Q a s → Q' a s) : Triple A G P c Q' E :=
  h.weaken hQ fun _ _ => id

theorem exists_pre {P : ι → σ → Prop} (h : ∀ i, Triple A G (P i) c Q E) : Triple A G (fun s => ∃ i, P i s) c Q E :=
  fun _ _ _ _ ⟨i, hs⟩ hc hA => h i hs hc hA

theorem fact_pre {φ : Prop} (h : φ → Triple A G P c Q E) : Triple A G (fun s => φ ∧ P s) c Q E :=
  fun _ _ _ _ ⟨hφ, hs⟩ hc hA => h hφ hs hc hA

end Triple

end Triple

section Moves

variable {σ ε κ α β ι : Type}

/-- however a run ends, its states are related and its events guaranteed -/
def Moves (R : σ → σ → Prop) (G : ε → Prop) (c : Comp σ ε κ α) : Prop :=
  ∀ ⦃s s' r t⦄, c s s' r t → R s s' ∧ ∀ e ∈ t, G e

variable {R : σ → σ → Prop} {G : ε → Prop} {c : Comp σ ε κ α}

namespace Moves

theorem ret (hR : ∀ s, R s s) (a : α) : Moves R G (pure a : Comp σ ε κ α) := by
  rintro s s' r t ⟨rfl, -, rfl⟩
  exact ⟨hR s', by simp⟩

theorem leave (hR : ∀ s, R s s) (k : κ) : Moves R G (Comp.leave k : Comp σ ε κ α) := by
  rintro s s' r t ⟨rfl, -, rfl⟩
  exact ⟨hR s', by simp⟩

theorem modify {f : σ → σ} (h : ∀ s, R s (f s)) : Moves R G (Comp.modify f : Comp σ ε κ Unit) := by
  rintro s s' r t ⟨rfl, -, rfl⟩
  exact ⟨h s, by simp⟩

theorem emit {e : ε} (hR : ∀ s, R s s) (h : G e) : Moves R G (Comp.emit e : Comp σ ε κ Unit) := by
  rintro s s' r t ⟨rfl, -, rfl⟩
  exact ⟨hR s', by simpa using h⟩

theorem get_bind {f : σ → Comp σ ε κ β} (h : ∀ a, Moves R G (f a)) : Moves R G (Comp.get >>= f) := by
  rintro s s' r t (⟨k, ⟨-, ⟨⟩, -⟩, -⟩ | ⟨a, s₁, t₁, t₂, ⟨rfl, -, rfl⟩, hf, rfl⟩)
  exact h a hf

theorem choose {c : ι → Comp σ ε κ α} (h : ∀ i, Moves R G (c i)) : Moves R G (Comp.choose c) := by
  rintro s s' r t ⟨i, hi⟩
  exact h i hi

theorem within {R' : σ → σ → Prop} {back : σ → σ → σ} (h : Moves R' G c) (hback : ∀ s s', R' s s' → R s (back s s')) :
    Moves R G (Comp.within back c) := by
  rintro s s' r t ⟨s₁, hc, rfl⟩
  obtain ⟨hR, hG⟩ := h hc
  exact ⟨hback s s₁ hR, hG⟩

theorem mono {R' : σ → σ → Prop} {G' : ε → Prop} (h : Moves R G c) (hR : ∀ s s', R s s' → R' s s') (hG : ∀ e, G e → G' e) :
    Moves R' G' c := by
  intro s s' r t hc
  obtain ⟨hr, hg⟩ := h hc
  exact ⟨hR s s' hr, fun e he => hG e (hg e he)⟩

theorem bind {f : α → Comp σ ε κ β} (htrans : ∀ {a b c}, R a b → R b c → R a c) (h : Moves R G c) (hf : ∀ a, Moves R G (f a)) :
    Moves R G (c >>= f) := by
  rintro s s' r t (⟨k, hk, rfl⟩ | ⟨a, s₁, t₁, t₂, h₁, h₂, rfl⟩)
  · exact h hk
  · obtain ⟨hR₁, hG₁⟩ := h h₁
    obtain ⟨hR₂, hG₂⟩ := hf a h₂
    exact ⟨htrans hR₁ hR₂, List.forall_mem_append.mpr ⟨hG₁, hG₂⟩⟩

theorem after {f : Result κ α → Comp σ ε κ β} (htrans : ∀ {a b c}, R a b → R b c → R a c) (h : Moves R G c)
    (hf : ∀ r, Moves R G (f r)) : Moves R G (Comp.after c f) := by
  rintro s s' r t ⟨r₁, s₁, t₁, t₂, h₁, h₂, rfl⟩
  obtain ⟨hR₁, hG₁⟩ := h h₁
  obtain ⟨hR₂, hG₂⟩ := hf r₁ h₂
  exact ⟨htrans hR₁ hR₂, List.forall_mem_append.mpr ⟨hG₁, hG₂⟩⟩

theorem loop {c : Comp σ ε κ Bool} (htrans : ∀ {a b c}, R a b → R b c → R a c) (h : Moves R G c) :
    Moves R G (Comp.loop c) := by
  intro s s' r t hrun
  induction hrun with
  | exit hexit => exact h hexit
  | left hleft => exact h hleft
  | again hround _ ih =>
    obtain ⟨hR₁, hG₁⟩ := h hround
    exact ⟨htrans hR₁ ih.1, List.forall_mem_append.mpr ⟨hG₁, ih.2⟩⟩

end Moves

/-- the relation of the first state and the last can be used for the postconditions -/
theorem Triple.moving {A G' : ε → Prop} {P : σ → Prop} {Q : α → σ → Prop} {E : κ → σ → Prop} (hm : Moves R G' c)
    (h : ∀ s₀, P s₀ → Triple A G (fun s => s = s₀) c (fun a s => R s₀ s → Q a s) fun k s => R s₀ s → E k s) :
    Triple A G P c Q E := by
  intro s s' r t hs hc hA
  obtain ⟨hG, hpost⟩ := h s hs rfl hc hA
  obtain ⟨hR, -⟩ := hm hc
  refine ⟨hG, ?_⟩
  cases r with
  | done a => exact hpost hR
  | left k => exact hpost hR

end Moves

end Flow
