import Mathlib.Data.List.Forall2

/-!
# Stateful computations that keep their state on failure

`EStateM ε σ α` is the shape of a method on `&mut self` that returns a
`Result`: a failure leaves whatever the method had already changed. The lemmas
here peel a successful run apart, one `bind` at a time.
-/

namespace Outcome

variable {ε σ α β : Type}

theorem except_bind_ok {x : Except ε α} {f : α → Except ε β} {b : β} :
    x >>= f = .ok b ↔ ∃ a, x = .ok a ∧ f a = .ok b := by
  cases x with
  | ok a =>
      show f a = .ok b ↔ _
      simp
  | error e =>
      show Except.error e = .ok b ↔ _
      simp

theorem mapM_ok {f : α → Except ε β} : ∀ {xs : List α} {ys : List β},
    xs.mapM f = .ok ys ↔ List.Forall₂ (fun x y => f x = .ok y) xs ys
  | [], ys => by
      rw [List.mapM_nil, List.forall₂_nil_left_iff]
      show Except.ok [] = .ok ys ↔ _
      rw [Except.ok.injEq]
      exact eq_comm
  | x :: xs, ys => by
      rw [List.mapM_cons, except_bind_ok, List.forall₂_cons_left_iff]
      constructor
      · rintro ⟨y, hy, h⟩
        obtain ⟨ys', hys, h⟩ := except_bind_ok.mp h
        obtain rfl := Except.ok.inj h
        exact ⟨y, ys', hy, mapM_ok.mp hys, rfl⟩
      · rintro ⟨y, ys', hy, hys, rfl⟩
        exact ⟨y, hy, except_bind_ok.mpr ⟨ys', mapM_ok.mpr hys, rfl⟩⟩

theorem mapM_forall {f : α → Except ε β} {P : β → Prop} (hf : ∀ x y, f x = .ok y → P y)
    {xs : List α} {ys : List β} (h : xs.mapM f = .ok ys) : ∀ y ∈ ys, P y := by
  have hall := mapM_ok.mp h
  clear h
  induction hall with
  | nil =>
      intro y hy
      cases hy
  | cons hxy _ ih =>
      intro y hy
      rcases List.mem_cons.mp hy with rfl | hy
      · exact hf _ _ hxy
      · exact ih y hy

theorem forall₂_succeeds {R : α → β → Prop} : ∀ {xs : List α},
    (∃ ys, List.Forall₂ R xs ys) ↔ ∀ x ∈ xs, ∃ y, R x y
  | [] => by
      simp only [List.forall₂_nil_left_iff, exists_eq, true_iff]
      intro x hx
      cases hx
  | x :: xs => by
      rw [List.forall_mem_cons, ← forall₂_succeeds]
      simp only [List.forall₂_cons_left_iff]
      constructor
      · rintro ⟨_, y, ys, hy, hys, rfl⟩
        exact ⟨⟨y, hy⟩, ys, hys⟩
      · rintro ⟨⟨y, hy⟩, ys, hys⟩
        exact ⟨y :: ys, y, ys, hy, hys, rfl⟩

theorem mapM_succeeds {f : α → Except ε β} {xs : List α} :
    (∃ ys, xs.mapM f = .ok ys) ↔ ∀ x ∈ xs, ∃ y, f x = .ok y := by
  simp only [mapM_ok]
  exact forall₂_succeeds

theorem forall₂_forall {R : α → β → Prop} {P : α → Prop} {Q : β → Prop} {xs : List α}
    {ys : List β} (h : List.Forall₂ R xs ys) (hR : ∀ x ∈ xs, ∀ y, R x y → (Q y ↔ P x)) :
    (∀ y ∈ ys, Q y) ↔ ∀ x ∈ xs, P x := by
  induction h with
  | nil => simp
  | cons hx _ ih =>
      rw [List.forall_mem_cons, List.forall_mem_cons, hR _ List.mem_cons_self _ hx,
        ih fun x hx => hR x (List.mem_cons_of_mem _ hx)]

theorem forall₂_exists {R : α → β → Prop} {P : α → Prop} {Q : β → Prop} {xs : List α}
    {ys : List β} (h : List.Forall₂ R xs ys) (hR : ∀ x ∈ xs, ∀ y, R x y → (Q y ↔ P x)) :
    (∃ y ∈ ys, Q y) ↔ ∃ x ∈ xs, P x := by
  induction h with
  | nil => simp
  | cons hx _ ih =>
      rw [List.exists_mem_cons_iff, List.exists_mem_cons_iff, hR _ List.mem_cons_self _ hx,
        ih fun x hx => hR x (List.mem_cons_of_mem _ hx)]

theorem bind_ok {x : EStateM ε σ α} {f : α → EStateM ε σ β} {s s'' : σ} {b : β} :
    (x >>= f) s = .ok b s'' ↔ ∃ a s', x s = .ok a s' ∧ f a s' = .ok b s'' := by
  show EStateM.bind x f s = _ ↔ _
  unfold EStateM.bind
  cases h : x s with
  | ok a s' =>
      simp only [EStateM.Result.ok.injEq]
      constructor
      · intro hf
        exact ⟨a, s', ⟨rfl, rfl⟩, hf⟩
      · rintro ⟨a', s₁, ⟨rfl, rfl⟩, hf⟩
        exact hf
  | error e s' => simp

theorem bind_of_ok {x : EStateM ε σ α} {f : α → EStateM ε σ β} {s s' : σ} {a : α}
    (h : x s = .ok a s') : (x >>= f) s = f a s' := by
  show EStateM.bind x f s = _
  rw [EStateM.bind, h]

theorem bind_of_error {x : EStateM ε σ α} {f : α → EStateM ε σ β} {s s' : σ} {e : ε}
    (h : x s = .error e s') : (x >>= f) s = .error e s' := by
  show EStateM.bind x f s = _
  rw [EStateM.bind, h]

theorem get_ok {s s' a : σ} :
    (get : EStateM ε σ σ) s = .ok a s' ↔ s = a ∧ s = s' := by
  show EStateM.Result.ok s s = .ok a s' ↔ _
  simp only [EStateM.Result.ok.injEq]

theorem modify_ok {f : σ → σ} {s s' : σ} {u : PUnit} :
    (modify f : EStateM ε σ PUnit) s = .ok u s' ↔ s' = f s := by
  show EStateM.Result.ok PUnit.unit (f s) = .ok u s' ↔ _
  simp only [EStateM.Result.ok.injEq, true_and]
  exact eq_comm

theorem modify_run (f : σ → σ) (s : σ) :
    (modify f : EStateM ε σ PUnit) s = .ok PUnit.unit (f s) := rfl

theorem pure_ok {a b : α} {s s' : σ} :
    (pure a : EStateM ε σ α) s = .ok b s' ↔ a = b ∧ s = s' := by
  show EStateM.Result.ok a s = .ok b s' ↔ _
  simp only [EStateM.Result.ok.injEq]

theorem throw_ok {e : ε} {b : α} {s s' : σ} :
    (throw e : EStateM ε σ α) s = .ok b s' ↔ False := by
  show EStateM.Result.error e s = .ok b s' ↔ _
  simp

/-- Run a pure fallible step: the state is untouched either way. -/
def ofExcept (x : Except ε α) : EStateM ε σ α := fun s =>
  match x with
  | .ok a => .ok a s
  | .error e => .error e s

theorem ofExcept_ok {x : Except ε α} {b : α} {s s' : σ} :
    (ofExcept x : EStateM ε σ α) s = .ok b s' ↔ x = .ok b ∧ s = s' := by
  cases x with
  | ok a =>
      show EStateM.Result.ok a s = .ok b s' ↔ _
      simp only [EStateM.Result.ok.injEq, Except.ok.injEq]
  | error e =>
      show EStateM.Result.error e s = .ok b s' ↔ _
      simp

/-- `x` succeeds from `s`. -/
def Succeeds (x : EStateM ε σ α) (s : σ) : Prop := ∃ a s', x s = .ok a s'

theorem Succeeds.bind {x : EStateM ε σ α} {f : α → EStateM ε σ β} {s s' : σ} {a : α}
    (hx : x s = .ok a s') (hf : Succeeds (f a) s') : Succeeds (x >>= f) s := by
  obtain ⟨b, s'', h⟩ := hf
  exact ⟨b, s'', bind_ok.mpr ⟨a, s', hx, h⟩⟩

/-! ## Failures -/

theorem bind_error {x : EStateM ε σ α} {f : α → EStateM ε σ β} {s s'' : σ} {e : ε} :
    (x >>= f) s = .error e s'' ↔
      x s = .error e s'' ∨ ∃ a s', x s = .ok a s' ∧ f a s' = .error e s'' := by
  show EStateM.bind x f s = _ ↔ _
  unfold EStateM.bind
  cases h : x s with
  | ok a s' =>
      constructor
      · intro hf
        exact Or.inr ⟨a, s', rfl, hf⟩
      · rintro (hf | ⟨a', s₁, hok, hf⟩)
        · exact absurd hf (by simp)
        · simp only [EStateM.Result.ok.injEq] at hok
          obtain ⟨rfl, rfl⟩ := hok
          exact hf
  | error e' s' => simp

theorem ofExcept_error {x : Except ε α} {e : ε} {s s' : σ} :
    (ofExcept x : EStateM ε σ α) s = .error e s' ↔ x = .error e ∧ s = s' := by
  cases x with
  | ok a =>
      show EStateM.Result.ok a s = .error e s' ↔ _
      simp
  | error err =>
      show EStateM.Result.error err s = .error e s' ↔ _
      simp only [EStateM.Result.error.injEq, Except.error.injEq]

/-- Whenever `x` fails, its error is in `E`. -/
def Raises (E : ε → Prop) (x : EStateM ε σ α) : Prop := ∀ s e s', x s = .error e s' → E e

/-! ## Triples -/

/-- The state a computation ends in, either way. -/
def final : EStateM.Result ε σ α → σ
  | .ok _ s | .error _ s => s

theorem final_ofExcept (x : Except ε α) (s : σ) : final (ofExcept x s) = s := by
  cases x with
  | ok a => rfl
  | error e => rfl

/-- From a state in `P`, `x` ends in `Q` if it succeeds, and with an error and a
state in `R` if it fails. -/
def Triple (P : σ → Prop) (x : EStateM ε σ α) (Q : σ → Prop) (R : ε → σ → Prop) : Prop :=
  ∀ s, P s → (∀ a s', x s = .ok a s' → Q s') ∧ ∀ e s', x s = .error e s' → R e s'

/-- The same with nothing said about the error. -/
abbrev Ends (P : σ → Prop) (x : EStateM ε σ α) (Q R : σ → Prop) : Prop := Triple P x Q fun _ => R

namespace Triple

variable {P P' Q Q' : σ → Prop} {R : ε → σ → Prop} {x : EStateM ε σ α} {f : α → EStateM ε σ β}

theorem bind (hx : Triple P x Q R) (hf : ∀ a, Triple Q (f a) Q' R) :
    Triple P (x >>= f) Q' R := by
  intro s hs
  refine ⟨?_, ?_⟩
  · intro b s' h
    obtain ⟨a, s₁, hok, h⟩ := bind_ok.mp h
    exact (hf a s₁ ((hx s hs).1 a s₁ hok)).1 b s' h
  · intro e s' h
    rcases bind_error.mp h with h | ⟨a, s₁, hok, h⟩
    · exact (hx s hs).2 e s' h
    · exact (hf a s₁ ((hx s hs).1 a s₁ hok)).2 e s' h

theorem get_bind {g : σ → EStateM ε σ β} (hg : ∀ s, P s → Triple P (g s) Q R) :
    Triple P (MonadState.get >>= g) Q R := by
  intro s hs
  refine ⟨?_, ?_⟩
  · intro b s' h
    obtain ⟨s₁, s₂, hget, h⟩ := bind_ok.mp h
    obtain ⟨rfl, rfl⟩ := get_ok.mp hget
    exact (hg s hs s hs).1 b s' h
  · intro e s' h
    rcases bind_error.mp h with h | ⟨s₁, s₂, hget, h⟩
    · cases h
    · obtain ⟨rfl, rfl⟩ := get_ok.mp hget
      exact (hg s hs s hs).2 e s' h

theorem pure (a : α) (hPQ : ∀ s, P s → Q s) : Triple P (Pure.pure a : EStateM ε σ α) Q R := by
  intro s hs
  refine ⟨?_, ?_⟩
  · intro b s' h
    rw [← (pure_ok.mp h).2]
    exact hPQ s hs
  · intro e s' h
    cases h

theorem modify {g : σ → σ} (hg : ∀ s, P s → Q (g s)) :
    Triple P (modifyThe σ g : EStateM ε σ PUnit) Q R := by
  intro s hs
  refine ⟨?_, ?_⟩
  · intro u s' h
    rw [modify_ok.mp h]
    exact hg s hs
  · intro e s' h
    cases h

theorem throw {e : ε} (hPR : ∀ s, P s → R e s) :
    Triple P (MonadExcept.throw e : EStateM ε σ α) Q R := by
  intro s hs
  refine ⟨?_, ?_⟩
  · intro a s' h
    cases h
  · intro e' s' h
    cases h
    exact hPR s hs

theorem ofExcept_bind {y : Except ε α} (he : ∀ e, y = .error e → ∀ s, P s → R e s)
    (hf : ∀ a, y = .ok a → Triple P (f a) Q R) :
    Triple P ((Outcome.ofExcept y : EStateM ε σ α) >>= f) Q R := by
  cases y with
  | ok a => exact hf a rfl
  | error e =>
      intro s hs
      refine ⟨?_, ?_⟩
      · intro b s' h
        cases h
      · intro e' s' h
        cases h
        exact he e rfl s hs

theorem imp (hx : Triple P x Q R) (hP : ∀ s, P' s → P s) : Triple P' x Q R :=
  fun s hs => hx s (hP s hs)

theorem of_and {p : Prop} (hx : p → Triple P x Q R) : Triple (fun s => P s ∧ p) x Q R :=
  fun s hs => hx hs.2 s hs.1

end Triple

theorem Ends.final {P Q R : σ → Prop} {x : EStateM ε σ α} {s : σ} (hx : Ends P x Q R)
    (hs : P s) : Q (final (x s)) ∨ R (Outcome.final (x s)) := by
  cases h : x s with
  | ok a s' => exact Or.inl ((hx s hs).1 a s' h)
  | error e s' => exact Or.inr ((hx s hs).2 e s' h)

/-! ## Invariants that survive a failure -/

/-- From a state in `I`, `x` ends in a state in `I` whether or not it fails, and
its errors are in `E`. -/
def Keeps (I : σ → Prop) (E : ε → Prop) (x : EStateM ε σ α) : Prop :=
  ∀ s, I s → (∀ a s', x s = .ok a s' → I s') ∧ ∀ e s', x s = .error e s' → I s' ∧ E e

namespace Keeps

variable {I : σ → Prop} {E : ε → Prop} {x : EStateM ε σ α} {f : α → EStateM ε σ β}

theorem bind (hx : Keeps I E x) (hf : ∀ a, Keeps I E (f a)) : Keeps I E (x >>= f) :=
  Triple.bind hx hf

theorem pure (a : α) : Keeps I E (Pure.pure a : EStateM ε σ α) := Triple.pure a fun _ h => h

theorem get_bind {g : σ → EStateM ε σ β} (hg : ∀ s, I s → Keeps I E (g s)) :
    Keeps I E (MonadState.get >>= g) :=
  Triple.get_bind hg

theorem modify {g : σ → σ} (hg : ∀ s, I s → I (g s)) :
    Keeps I E (modifyThe σ g : EStateM ε σ PUnit) :=
  Triple.modify hg

theorem throw {e : ε} (he : E e) : Keeps I E (MonadExcept.throw e : EStateM ε σ α) :=
  Triple.throw fun _ h => ⟨h, he⟩

theorem ofExcept_bind {y : Except ε α} (he : ∀ e, y = .error e → E e)
    (hf : ∀ a, y = .ok a → Keeps I E (f a)) :
    Keeps I E ((Outcome.ofExcept y : EStateM ε σ α) >>= f) :=
  Triple.ofExcept_bind (fun e h _ hs => ⟨hs, he e h⟩) hf

theorem ends (hx : Keeps I (fun _ => True) x) : Ends I x I I :=
  fun s hs => ⟨(hx s hs).1, fun e s' h => ((hx s hs).2 e s' h).1⟩

theorem raises (hx : Keeps (fun _ => True) E x) : Raises E x :=
  fun s e s' h => ((hx s trivial).2 e s' h).2

end Keeps

end Outcome
