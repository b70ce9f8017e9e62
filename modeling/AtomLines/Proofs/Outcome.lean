/-!
# Runs that succeed

A run over a list succeeds if each of its steps does. A run that works on one place
of a larger state succeeds if the run on the place alone does.
-/

namespace AtomLines

variable {ε ε' α β γ ρ σ τ : Type}

/-- A run of two steps succeeds if both do. -/
theorem bind_eq_ok {x : Except ε α} {f : α → Except ε β} {b : β} :
    x >>= f = .ok b ↔ ∃ a, x = .ok a ∧ f a = .ok b := by
  cases x with
  | error e => simp [bind, Except.bind]
  | ok a => simp [bind, Except.bind]

/-- A run of two steps fails with the first one that does. -/
theorem bind_eq_error {x : Except ε α} {f : α → Except ε β} {e : ε} :
    x >>= f = .error e ↔ x = .error e ∨ ∃ a, x = .ok a ∧ f a = .error e := by
  cases x with
  | error e' => simp [bind, Except.bind]
  | ok a => simp [bind, Except.bind]

theorem map_eq_self {f : α → α} {xs : List α} (h : ∀ x ∈ xs, f x = x) : xs.map f = xs :=
  (List.map_congr_left (g := id) h).trans (List.map_id xs)

theorem mapM_eq_ok {f : α → Except ε β} {g : α → β} {xs : List α} (h : ∀ x ∈ xs, f x = .ok (g x)) :
    xs.mapM f = .ok (xs.map g) := by
  induction xs with
  | nil => rfl
  | cons x xs ih =>
    rw [List.forall_mem_cons] at h
    rw [List.mapM_cons, h.1, ih h.2]
    rfl

theorem mapM_exists_ok {f : α → Except ε β} {xs : List α} (h : ∀ x ∈ xs, ∃ y, f x = .ok y) :
    ∃ ys, xs.mapM f = .ok ys := by
  induction xs with
  | nil => exact ⟨[], rfl⟩
  | cons x xs ih =>
    rw [List.forall_mem_cons] at h
    obtain ⟨y, hy⟩ := h.1
    obtain ⟨ys, hys⟩ := ih h.2
    exact ⟨y :: ys, by rw [List.mapM_cons, hy, hys]; rfl⟩

theorem mapM_cons_eq_ok {f : α → Except ε β} {x : α} {xs : List α} {ys : List β} (h : (x :: xs).mapM f = .ok ys) :
    ∃ y rest, f x = .ok y ∧ xs.mapM f = .ok rest ∧ ys = y :: rest := by
  rw [List.mapM_cons] at h
  obtain ⟨y, hy, h⟩ := bind_eq_ok.1 h
  obtain ⟨rest, hrest, h⟩ := bind_eq_ok.1 h
  cases h
  exact ⟨y, rest, hy, hrest, rfl⟩

theorem mapM_concat_eq_ok {f : α → Except ε β} {xs : List α} {x : α} {ys : List β}
    (h : (xs ++ [x]).mapM f = .ok ys) : ∃ init y, xs.mapM f = .ok init ∧ f x = .ok y ∧ ys = init ++ [y] := by
  rw [List.mapM_append] at h
  obtain ⟨init, hinit, h⟩ := bind_eq_ok.1 h
  obtain ⟨rest, hrest, h⟩ := bind_eq_ok.1 h
  obtain ⟨y, rest', hy, hrest', rfl⟩ := mapM_cons_eq_ok hrest
  cases hrest'
  cases h
  exact ⟨init, y, hinit, hy, rfl⟩

/-- A run that succeeds has an outcome for each element, and no others. -/
theorem mapM_ok_mem {f : α → Except ε β} {xs : List α} {ys : List β} (h : xs.mapM f = .ok ys) :
    (∀ x ∈ xs, ∃ y, f x = .ok y) ∧ ∀ y, y ∈ ys ↔ ∃ x ∈ xs, f x = .ok y := by
  induction xs generalizing ys with
  | nil =>
    cases h
    simp
  | cons x xs ih =>
    obtain ⟨y, rest, hy, hrest, rfl⟩ := mapM_cons_eq_ok h
    obtain ⟨hall, hmem⟩ := ih hrest
    refine ⟨List.forall_mem_cons.2 ⟨⟨y, hy⟩, hall⟩, fun z => ?_⟩
    simp [hmem, hy, eq_comm (a := y)]

/-- Where each element either has a fault or goes through, a run fails with the first
fault there is. -/
theorem mapM_eq_elim {f : α → Except ε β} {g : α → β} {fault : α → Option γ} {err : γ → ε}
    (h : ∀ x, f x = (fault x).elim (.ok (g x)) fun c => .error (err c)) (xs : List α) :
    xs.mapM f = (xs.findSome? fault).elim (.ok (xs.map g)) fun c => .error (err c) := by
  induction xs with
  | nil => rfl
  | cons x xs ih =>
    rw [List.mapM_cons, h x, ih, List.findSome?_cons]
    cases fault x with
    | some c => rfl
    | none => cases xs.findSome? fault <;> rfl

theorem mapError_eq_ok {x : Except ε α} {f : ε → ε'} {a : α} : x.mapError f = .ok a ↔ x = .ok a := by
  cases x with
  | error e => exact ⟨nofun, nofun⟩
  | ok b =>
    show Except.ok b = Except.ok a ↔ _
    rw [Except.ok.injEq, Except.ok.injEq]

theorem map_eq_ok {x : Except ε α} {f : α → β} {b : β} : x.map f = .ok b ↔ ∃ a, x = .ok a ∧ f a = b := by
  cases x with
  | error e => exact ⟨nofun, nofun⟩
  | ok a =>
    show Except.ok (f a) = Except.ok b ↔ _
    rw [Except.ok.injEq]
    simp

theorem map_eq_error {x : Except ε α} {f : α → β} {e : ε} : x.map f = .error e ↔ x = .error e := by
  cases x with
  | error e' => exact ⟨fun h => by cases h; rfl, fun h => by cases h; rfl⟩
  | ok a => exact ⟨nofun, nofun⟩

theorem foldlM_cons_ok {f : σ → α → Except ε σ} {s t : σ} {x : α} (h : f s x = .ok t) (xs : List α) :
    (x :: xs).foldlM f s = xs.foldlM f t := by
  rw [List.foldlM_cons, h]
  rfl

theorem foldlM_append_ok {f : σ → α → Except ε σ} {s t : σ} {xs : List α} (h : xs.foldlM f s = .ok t)
    (ys : List α) : (xs ++ ys).foldlM f s = ys.foldlM f t := by
  rw [List.foldlM_append, h]
  rfl

theorem foldlM_cons_eq_ok {f : σ → α → Except ε σ} {s u : σ} {x : α} {xs : List α}
    (h : (x :: xs).foldlM f s = .ok u) : ∃ t, f s x = .ok t ∧ xs.foldlM f t = .ok u := by
  rw [List.foldlM_cons] at h
  exact bind_eq_ok.1 h

theorem foldlM_concat_eq_ok {f : σ → α → Except ε σ} {s u : σ} {x : α} {xs : List α} :
    (xs ++ [x]).foldlM f s = .ok u ↔ ∃ t, xs.foldlM f s = .ok t ∧ f t x = .ok u := by
  rw [List.foldlM_append, bind_eq_ok]
  simp only [List.foldlM_cons, List.foldlM_nil, bind_pure]

theorem foldlM_append_error {f : σ → α → Except ε σ} {s : σ} {e : ε} {xs : List α} (h : xs.foldlM f s = .error e)
    (ys : List α) : (xs ++ ys).foldlM f s = .error e := by
  rw [List.foldlM_append, h]
  rfl

/-- Steps that do the same make runs that do the same. -/
theorem foldlM_congr {f f' : σ → α → Except ε σ} {xs : List α} (h : ∀ x ∈ xs, ∀ t, f t x = f' t x) (s : σ) :
    xs.foldlM f s = xs.foldlM f' s := by
  induction xs generalizing s with
  | nil => rfl
  | cons x xs ih =>
    rw [List.forall_mem_cons] at h
    rw [List.foldlM_cons, List.foldlM_cons, h.1]
    exact bind_congr fun t => ih h.2 t

/-- A run with a step that always fails stops at the first error, which is one that its
steps can give. -/
theorem foldlM_fails {f : σ → α → Except ε σ} {P : ε → Prop} {s : σ} {xs : List α}
    (hP : ∀ x ∈ xs, ∀ t e, f t x = .error e → P e) (hx : ∃ x ∈ xs, ∀ t, ∃ e, f t x = .error e) :
    ∃ e, xs.foldlM f s = .error e ∧ P e := by
  induction xs generalizing s with
  | nil =>
    obtain ⟨x, hm, -⟩ := hx
    cases hm
  | cons y ys ih =>
    cases hy : f s y with
    | error e => exact ⟨e, by rw [List.foldlM_cons, hy]; rfl, hP y List.mem_cons_self s e hy⟩
    | ok t =>
      rw [foldlM_cons_ok hy]
      refine ih (fun x hm => hP x (List.mem_cons_of_mem y hm)) ?_
      obtain ⟨x, hm, hfail⟩ := hx
      rcases List.mem_cons.1 hm with rfl | hm
      · obtain ⟨e, he⟩ := hfail s
        rw [hy] at he
        cases he
      · exact ⟨x, hm, hfail⟩

/-- A run in one place of a state: a step there is a step of the whole, which then
holds the outcome at the place. -/
theorem foldlM_place (get : τ → σ) (set : σ → τ → τ) (whole : τ → ρ) {f : σ → α → Except ε σ}
    {g : ρ → β → Except ε' ρ} {e : α → β}
    (step : ∀ {t x s}, f (get t) x = .ok s → g (whole t) (e x) = .ok (whole (set s t)))
    (get_set : ∀ s t, get (set s t) = s) (set_set : ∀ s s' t, set s' (set s t) = set s' t)
    {xs : List α} (hn : xs ≠ []) {t : τ} {s : σ} (h : xs.foldlM f (get t) = .ok s) :
    (xs.map e).foldlM g (whole t) = .ok (whole (set s t)) := by
  induction xs generalizing t with
  | nil => exact absurd rfl hn
  | cons x xs ih =>
    obtain ⟨s₁, h₁, h⟩ := foldlM_cons_eq_ok h
    rw [List.map_cons, foldlM_cons_ok (step h₁)]
    cases xs with
    | nil =>
      cases h
      rfl
    | cons y ys =>
      rw [← get_set s₁ t] at h
      rw [ih (by simp) h, set_set]

/-! ## Two runs -/

/-- Both succeed, with related outcomes, or both fail. -/
inductive Agree (R : α → β → Prop) : Except ε α → Except ε' β → Prop
  | ok {a : α} {b : β} : R a b → Agree R (.ok a) (.ok b)
  | error {e : ε} {e' : ε'} : Agree R (.error e) (.error e')

namespace Agree

variable {R : α → β → Prop} {S : σ → τ → Prop} {x : Except ε α} {y : Except ε' β}

theorem of_iff (hs : (∃ a, x = .ok a) ↔ ∃ b, y = .ok b) (hr : ∀ a b, x = .ok a → y = .ok b → R a b) : Agree R x y := by
  cases x with
  | ok a =>
    obtain ⟨b, rfl⟩ := hs.1 ⟨a, rfl⟩
    exact .ok (hr a b rfl rfl)
  | error e =>
    cases y with
    | ok b =>
      obtain ⟨a, ha⟩ := hs.2 ⟨b, rfl⟩
      cases ha
    | error e' => exact .error

theorem succeeds_iff (h : Agree R x y) : (∃ a, x = .ok a) ↔ ∃ b, y = .ok b := by
  cases h <;> simp

theorem related {a : α} {b : β} (h : Agree R x y) (hx : x = .ok a) (hy : y = .ok b) : R a b := by
  subst hx hy
  cases h
  assumption

theorem bind {f : α → Except ε σ} {g : β → Except ε' τ} (h : Agree R x y) (hf : ∀ a b, R a b → Agree S (f a) (g b)) :
    Agree S (x >>= f) (y >>= g) := by
  cases h with
  | ok hr => exact hf _ _ hr
  | error => exact .error

theorem map {f : α → σ} {g : β → τ} (h : Agree R x y) (hf : ∀ a b, R a b → S (f a) (g b)) :
    Agree S (x.map f) (y.map g) := by
  cases h with
  | ok hr => exact .ok (hf _ _ hr)
  | error => exact .error

theorem mapError {ε₁ ε₂ : Type} {f : ε → ε₁} {g : ε' → ε₂} (h : Agree R x y) :
    Agree R (x.mapError f) (y.mapError g) := by
  cases h with
  | ok hr => exact .ok hr
  | error => exact .error

end Agree

end AtomLines
