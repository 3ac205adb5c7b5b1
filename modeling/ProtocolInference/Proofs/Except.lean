import Mathlib.Data.List.Basic

/-!
Reading computations backwards.

A computation of this library that may fail is a sequence of checks and of
smaller computations. If it succeeds, every check has let it pass and
every smaller computation has succeeded. If it fails, one of them fails
and those before it succeed. The lemmas here say so for each way of
putting computations together, so that a proof takes a result apart step
by step and never meets the monad.
-/

namespace ProtocolInference

variable {ε ε' α β σ : Type}

@[simp] theorem error_bind (e : ε) (f : α → Except ε β) :
    (Except.error e >>= f) = Except.error e := rfl

theorem exists_eq_error_iff {x : Except ε α} : (∃ e, x = .error e) ↔ ¬ ∃ a, x = .ok a := by
  cases x with
  | error e => simp
  | ok a => simp

@[simp] theorem ok_bind (a : α) (f : α → Except ε β) : (Except.ok a >>= f) = f a := rfl

theorem bind_eq_ok {x : Except ε α} {f : α → Except ε β} {b : β} :
    (x >>= f) = .ok b ↔ ∃ a, x = .ok a ∧ f a = .ok b := by
  cases x with
  | error e => simp
  | ok a => simp

theorem bind_eq_error {x : Except ε α} {f : α → Except ε β} {e : ε} :
    (x >>= f) = .error e ↔ x = .error e ∨ ∃ a, x = .ok a ∧ f a = .error e := by
  cases x with
  | error e' => simp
  | ok a => simp

theorem map_eq_ok {x : Except ε α} {f : α → β} {b : β} :
    x.map f = .ok b ↔ ∃ a, x = .ok a ∧ f a = b := by
  cases x with
  | error e => simp [Except.map]
  | ok a => simp [Except.map]

theorem map_eq_error {x : Except ε α} {f : α → β} {e : ε} : x.map f = .error e ↔ x = .error e := by
  cases x with
  | error e => simp [Except.map]
  | ok a => simp [Except.map]

theorem mapError_eq_ok {x : Except ε α} {f : ε → ε'} {a : α} :
    x.mapError f = .ok a ↔ x = .ok a := by
  cases x with
  | error e => simp [Except.mapError]
  | ok a => simp [Except.mapError]

theorem check_eq_ok {c : Prop} [Decidable c] {e : ε} {x : Except ε α} {a : α} :
    (if c then Except.error e else x) = .ok a ↔ ¬ c ∧ x = .ok a := by
  by_cases h : c <;> simp [h]

theorem check_eq_error {c : Prop} [Decidable c] {e e' : ε} {x : Except ε α} :
    (if c then Except.error e else x) = .error e' ↔ c ∧ e = e' ∨ ¬ c ∧ x = .error e' := by
  by_cases h : c <;> simp [h]

@[simp] theorem pure_eq_ok {a b : α} : (pure a : Except ε α) = .ok b ↔ a = b := by
  rw [pure, Applicative.toPure, Monad.toApplicative]
  exact ⟨Except.ok.inj, congrArg _⟩

theorem pure_ne_error {a : α} {e : ε} : (pure a : Except ε α) ≠ .error e := nofun

/-! ### One computation after another -/

theorem check_bind_eq_ok {x : Except ε Unit} {y : Except ε β} {b : β} :
    (x >>= fun _ => y) = .ok b ↔ x = .ok () ∧ y = .ok b := by
  cases x with
  | error e => simp
  | ok u => simp

theorem check_bind_eq_error {x : Except ε Unit} {y : Except ε β} {e : ε} :
    (x >>= fun _ => y) = .error e ↔ x = .error e ∨ x = .ok () ∧ y = .error e := by
  cases x with
  | error e' => simp
  | ok u => simp

section Both

variable {γ : Type} {x : Except ε α} {y : Except ε β} {f : α → β → γ}

theorem exists_both_eq_ok :
    (∃ c, (do let a ← x; let b ← y; return f a b) = Except.ok c) ↔
      (∃ a, x = .ok a) ∧ ∃ b, y = .ok b := by
  constructor
  · rintro ⟨c, h⟩
    obtain ⟨a, ha, h⟩ := bind_eq_ok.1 h
    obtain ⟨b, hb, -⟩ := bind_eq_ok.1 h
    exact ⟨⟨a, ha⟩, b, hb⟩
  · rintro ⟨⟨a, rfl⟩, b, rfl⟩
    exact ⟨f a b, rfl⟩

theorem both_eq_error {e : ε} :
    (do let a ← x; let b ← y; return f a b) = Except.error e ↔
      x = .error e ∨ (∃ a, x = .ok a) ∧ y = .error e := by
  simp only [bind_eq_error, pure_ne_error, and_false, exists_false, or_false, exists_and_right]

end Both

/-! ### Programs in place

A program that changes a state and may fail: a failure ends it and leaves the
state as it is by then. -/

section InPlace

variable {x : ExceptT ε (StateM σ) α} {s s' : σ}

theorem run_bind_of_ok {a : α} (h : StateT.run (ExceptT.run x) s = (.ok a, s'))
    (f : α → ExceptT ε (StateM σ) β) :
    StateT.run (ExceptT.run (x >>= f)) s = StateT.run (ExceptT.run (f a)) s' := by
  have h : x s = (.ok a, s') := h
  show StateT.bind x (ExceptT.bindCont f) s = _
  rw [StateT.bind, h]
  rfl

theorem run_bind_of_error {e : ε} (h : StateT.run (ExceptT.run x) s = (.error e, s'))
    (f : α → ExceptT ε (StateM σ) β) :
    StateT.run (ExceptT.run (x >>= f)) s = (.error e, s') := by
  have h : x s = (.error e, s') := h
  show StateT.bind x (ExceptT.bindCont f) s = _
  rw [StateT.bind, h]
  rfl

end InPlace

/-! ### Lists -/

theorem forM_eq_ok {f : α → Except ε Unit} {l : List α} :
    l.forM f = .ok () ↔ ∀ a ∈ l, f a = .ok () := by
  induction l with
  | nil => exact ⟨fun _ a ha => (List.not_mem_nil ha).elim, fun _ => rfl⟩
  | cons a l ih =>
      change (f a >>= fun _ => l.forM f) = .ok () ↔ _
      rw [bind_eq_ok, List.forall_mem_cons]
      constructor
      · rintro ⟨⟨⟩, ha, hl⟩
        exact ⟨ha, ih.1 hl⟩
      · rintro ⟨ha, hl⟩
        exact ⟨⟨⟩, ha, ih.2 hl⟩

theorem exists_of_forM_eq_error {f : α → Except ε Unit} {l : List α} {e : ε}
    (h : l.forM f = .error e) : ∃ a ∈ l, f a = .error e := by
  induction l with
  | nil => cases h
  | cons a l ih =>
      change (f a >>= fun _ => l.forM f) = .error e at h
      cases ha : f a with
      | error e' =>
          rw [ha] at h
          exact ⟨a, List.mem_cons_self, ha.trans h⟩
      | ok u =>
          rw [ha] at h
          obtain ⟨b, hb, heq⟩ := ih h
          exact ⟨b, List.mem_cons_of_mem _ hb, heq⟩

/-- What every single step keeps, a successful sequence of steps keeps. -/
theorem foldlM_induction {f : σ → α → Except ε σ} {P : σ → Prop} {l : List α} {s s' : σ}
    (hstep : ∀ a ∈ l, ∀ s s', f s a = .ok s' → P s → P s')
    (h : l.foldlM f s = .ok s') (hs : P s) : P s' := by
  induction l generalizing s with
  | nil => rwa [← Except.ok.inj h]
  | cons a l ih =>
      rw [List.foldlM_cons, bind_eq_ok] at h
      obtain ⟨t, ht, h⟩ := h
      refine ih (fun b hb => hstep b (List.mem_cons_of_mem _ hb)) h ?_
      exact hstep a List.mem_cons_self s t ht hs

theorem mapM_cons_eq_ok {f : α → Except ε β} {a : α} {l : List α} {bs : List β} :
    (a :: l).mapM f = .ok bs ↔ ∃ b bs', f a = .ok b ∧ l.mapM f = .ok bs' ∧ bs = b :: bs' := by
  rw [List.mapM_cons, bind_eq_ok]
  constructor
  · rintro ⟨b, hb, h⟩
    obtain ⟨bs', hbs', h⟩ := bind_eq_ok.1 h
    exact ⟨b, bs', hb, hbs', (pure_eq_ok.1 h).symm⟩
  · rintro ⟨b, bs', hb, hbs', rfl⟩
    exact ⟨b, hb, by rw [hbs']; rfl⟩

/-- Where each element has a condition and a result of its own. -/
theorem mapM_eq_ok_map {f : α → Except ε β} {P : α → Prop} {g : α → β} {l : List α} {bs : List β}
    (h : ∀ a ∈ l, ∀ b, f a = .ok b ↔ P a ∧ b = g a) :
    l.mapM f = .ok bs ↔ (∀ a ∈ l, P a) ∧ bs = l.map g := by
  induction l generalizing bs with
  | nil =>
      rw [List.mapM_nil, pure_eq_ok]
      simp [eq_comm]
  | cons a l ih =>
      obtain ⟨hhead, htail⟩ := List.forall_mem_cons.1 h
      simp only [mapM_cons_eq_ok, hhead, ih htail, List.forall_mem_cons, List.map_cons]
      constructor
      · rintro ⟨_, _, ⟨ha, rfl⟩, ⟨hl, rfl⟩, rfl⟩
        exact ⟨⟨ha, hl⟩, rfl⟩
      · rintro ⟨⟨ha, hl⟩, rfl⟩
        exact ⟨_, _, ⟨ha, rfl⟩, ⟨hl, rfl⟩, rfl⟩

/-- Where a list fails: at its head, or at an element of the tail behind a
head that is passed. Here `Q` says that elements are passed, and `R` that
the element behind them fails. -/
theorem exists_failure_cons {Q Q' : List α → Prop} {R : List α → α → Prop} {p : Prop} {a : α}
    {l : List α} (hnil : Q []) (hcons : ∀ before, Q (a :: before) ↔ p ∧ Q' before) :
    (∃ before b after, a :: l = before ++ b :: after ∧ Q before ∧ R before b) ↔
      R [] a ∨ p ∧ ∃ before b after, l = before ++ b :: after ∧ Q' before ∧ R (a :: before) b := by
  constructor
  · rintro ⟨before, b, after, h, hbefore, hb⟩
    cases before with
    | nil =>
        obtain ⟨rfl, -⟩ := List.cons.inj h
        exact .inl hb
    | cons c before =>
        obtain ⟨rfl, hl⟩ := List.cons.inj h
        obtain ⟨hp, hbefore⟩ := (hcons before).1 hbefore
        exact .inr ⟨hp, before, b, after, hl, hbefore, hb⟩
  · rintro (ha | ⟨hp, before, b, after, rfl, hbefore, hb⟩)
    · exact ⟨[], a, l, rfl, hnil, ha⟩
    · exact ⟨a :: before, b, after, rfl, (hcons before).2 ⟨hp, hbefore⟩, hb⟩

theorem mapM_cons_eq_error {f : α → Except ε β} {a : α} {l : List α} {e : ε} :
    (a :: l).mapM f = .error e ↔
      f a = .error e ∨ (∃ b, f a = .ok b) ∧ l.mapM f = .error e := by
  rw [List.mapM_cons, both_eq_error]

theorem mapM_eq_error {f : α → Except ε β} {l : List α} {e : ε} :
    l.mapM f = .error e ↔ ∃ before a after, l = before ++ a :: after ∧
      (∀ b ∈ before, ∃ c, f b = .ok c) ∧ f a = .error e := by
  induction l with
  | nil => simp [pure_ne_error]
  | cons a l ih =>
      rw [mapM_cons_eq_error, ih]
      refine .symm (exists_failure_cons (List.forall_mem_nil _) fun before => ?_)
      exact List.forall_mem_cons

theorem exists_mapM_eq_ok {f : α → Except ε β} {l : List α} (h : ∀ a ∈ l, ∃ b, f a = .ok b) :
    ∃ bs, l.mapM f = .ok bs := by
  induction l with
  | nil => exact ⟨[], rfl⟩
  | cons a l ih =>
      obtain ⟨⟨b, hb⟩, htail⟩ := List.forall_mem_cons.1 h
      obtain ⟨bs, hbs⟩ := ih htail
      exact ⟨b :: bs, mapM_cons_eq_ok.2 ⟨b, bs, hb, hbs, rfl⟩⟩

theorem mem_of_mapM_eq_ok {f : α → Except ε β} {l : List α} {bs : List β}
    (h : l.mapM f = .ok bs) {b : β} : b ∈ bs ↔ ∃ a ∈ l, f a = .ok b := by
  induction l generalizing bs with
  | nil =>
      obtain rfl := pure_eq_ok.1 h
      simp
  | cons a l ih =>
      obtain ⟨c, bs', hc, hbs', rfl⟩ := mapM_cons_eq_ok.1 h
      rw [List.mem_cons, ih hbs', List.exists_mem_cons_iff, hc, Except.ok.injEq, eq_comm]

end ProtocolInference
