import Buster.Lib.Trace

/-!
# Programs that may exit

A program of `OptionT (Prog ε σ)` stops for good where it fails. `Passes` is
the meaning of a run that gets through.
-/

namespace Imp.Prog

variable {ε σ α β : Type}

/-- The run from `s` emits `es` and gets through with result `a` in state `s'`. -/
def Passes (x : OptionT (Prog ε σ) α) (s : σ) (es : List ε) (a : α) (s' : σ) : Prop :=
  x.run.Returns s es (some a) s'

/-- A part fails, and nothing follows, or it gets through and the rest decides. -/
theorem run_bind_returns {x : OptionT (Prog ε σ) α} {f : α → OptionT (Prog ε σ) β} {s s'' : σ}
    {es : List ε} {r : Option β} :
    (x >>= f).run.Returns s es r s'' ↔ r = none ∧ x.run.Returns s es none s'' ∨
      ∃ es₁ a s' es₂, Passes x s es₁ a s' ∧ (f a).run.Returns s' es₂ r s'' ∧ es = es₁ ++ es₂ := by
  rw [OptionT.run_bind, Option.elimM, returns_bind]
  constructor
  · rintro ⟨es₁, result, s', es₂, first, rest, rfl⟩
    cases result with
    | none =>
      obtain ⟨rfl, rfl, rfl⟩ := returns_pure.mp rest
      rw [List.append_nil]
      exact .inl ⟨rfl, first⟩
    | some a => exact .inr ⟨es₁, a, s', es₂, first, rest, rfl⟩
  · rintro (⟨rfl, failed⟩ | ⟨es₁, a, s', es₂, first, rest, rfl⟩)
    · exact ⟨es, none, s'', [], failed, pure_returns none s'', (List.append_nil es).symm⟩
    · exact ⟨es₁, some a, s', es₂, first, rest, rfl⟩

theorem passes_bind {x : OptionT (Prog ε σ) α} {f : α → OptionT (Prog ε σ) β} {s s'' : σ}
    {es : List ε} {b : β} :
    Passes (x >>= f) s es b s'' ↔ ∃ es₁ a s' es₂,
      Passes x s es₁ a s' ∧ Passes (f a) s' es₂ b s'' ∧ es = es₁ ++ es₂ := by
  unfold Passes
  rw [run_bind_returns]
  exact or_iff_right fun failed => Option.some_ne_none b failed.1

@[simp] theorem passes_pure {a b : α} {s s' : σ} {es : List ε} :
    Passes (pure a : OptionT (Prog ε σ) α) s es b s' ↔ es = [] ∧ b = a ∧ s' = s := by
  unfold Passes
  rw [OptionT.run_pure, returns_pure, Option.some.injEq]

theorem passes_failure {s s' : σ} {es : List ε} {a : α} :
    ¬ Passes (failure : OptionT (Prog ε σ) α) s es a s' := by
  intro run
  have stopped := (returns_pure.mp run).2.1
  cases stopped

@[simp] theorem passes_lift {p : Prog ε σ α} {s s' : σ} {es : List ε} {a : α} :
    Passes (OptionT.lift p) s es a s' ↔ p.Returns s es a s' := by
  unfold Passes
  rw [OptionT.run_lift, returns_bind]
  constructor
  · rintro ⟨es₁, b, s₁, es₂, first, last, rfl⟩
    obtain ⟨rfl, same, rfl⟩ := returns_pure.mp last
    cases same
    rwa [List.append_nil]
  · intro run
    exact ⟨es, a, s', [], run, pure_returns _ s', (List.append_nil es).symm⟩

/-- A part that gets through does not decide how the run ends. -/
theorem Passes.rest {x : OptionT (Prog ε σ) α} {f : α → OptionT (Prog ε σ) β} {s s' s'' : σ}
    {es all : List ε} {a : α} {r : Option β} (h : Passes x s es a s')
    (run : (x >>= f).run.Returns s all r s'') :
    ∃ more, all = es ++ more ∧ (f a).run.Returns s' more r s'' := by
  rw [OptionT.run_bind, Option.elimM] at run
  have first : x.run.Returns s es (some a) s' := h
  obtain ⟨more, split, rest⟩ := first.rest run
  exact ⟨more, split, rest⟩

/-- Where a part fails, nothing follows. -/
theorem exits_bind {x : OptionT (Prog ε σ) α} {f : α → OptionT (Prog ε σ) β} {s s' : σ}
    {es : List ε} (h : x.run.Returns s es none s') : (x >>= f).run.Returns s es none s' :=
  run_bind_returns.mpr (.inl ⟨rfl, h⟩)

/-- What holds of the events of a part and of those of what may come after it. -/
theorem forall_mem_bind {x : OptionT (Prog ε σ) α} {f : α → OptionT (Prog ε σ) β} {s s'' : σ}
    {es : List ε} {r : Option β} {P : ε → Prop} (run : (x >>= f).run.Returns s es r s'')
    (first : ∀ {es r s'}, x.run.Returns s es r s' → ∀ e ∈ es, P e)
    (rest : ∀ {es a s' es'}, Passes x s es a s' → (f a).run.Returns s' es' r s'' →
      ∀ e ∈ es', P e) : ∀ e ∈ es, P e := by
  rcases run_bind_returns.mp run with ⟨_, failed⟩ | ⟨es₁, a, s', es₂, passed, run', rfl⟩
  · exact first failed
  · exact List.forall_mem_append.mpr ⟨first passed, rest passed run'⟩

/-! ## Whether a run gets through -/

def Through (x : OptionT (Prog ε σ) α) (s : σ) : Prop := ∃ es a s', Passes x s es a s'

theorem Passes.through {x : OptionT (Prog ε σ) α} {s s' : σ} {es : List ε} {a : α}
    (h : Passes x s es a s') : Through x s := ⟨es, a, s', h⟩

theorem through_bind {x : OptionT (Prog ε σ) α} {f : α → OptionT (Prog ε σ) β} {s : σ} :
    Through (x >>= f) s ↔ ∃ es a s', Passes x s es a s' ∧ Through (f a) s' := by
  constructor
  · rintro ⟨_, b, s'', run⟩
    obtain ⟨es₁, a, s', es₂, first, rest, rfl⟩ := passes_bind.mp run
    exact ⟨es₁, a, s', first, rest.through⟩
  · rintro ⟨es₁, a, s', first, es₂, b, s'', rest⟩
    exact (passes_bind.mpr ⟨es₁, a, s', es₂, first, rest, rfl⟩).through

theorem through_pure (a : α) (s : σ) : Through (pure a : OptionT (Prog ε σ) α) s :=
  ⟨[], a, s, passes_pure.mpr ⟨rfl, rfl, rfl⟩⟩

theorem not_through_failure (s : σ) : ¬ Through (failure : OptionT (Prog ε σ) α) s :=
  fun ⟨_, _, _, run⟩ => passes_failure run

theorem Passes.unique {x : OptionT (Prog ε σ) α} {s s₁ s₂ : σ} {es₁ es₂ : List ε} {a₁ a₂ : α}
    (h₁ : Passes x s es₁ a₁ s₁) (h₂ : Passes x s es₂ a₂ s₂) : es₁ = es₂ ∧ a₁ = a₂ ∧ s₁ = s₂ := by
  obtain ⟨events, value, state⟩ := Returns.unique h₁ h₂
  exact ⟨events, Option.some.inj value, state⟩

/-- What comes after a part that gets through decides. -/
theorem Passes.through_bind {x : OptionT (Prog ε σ) α} {f : α → OptionT (Prog ε σ) β} {s s' : σ}
    {es : List ε} {a : α} (h : Passes x s es a s') : Through (x >>= f) s ↔ Through (f a) s' := by
  rw [Prog.through_bind]
  constructor
  · rintro ⟨_, _, _, first, rest⟩
    obtain ⟨_, rfl, rfl⟩ := h.unique first
    exact rest
  · exact fun rest => ⟨es, a, s', h, rest⟩

/-- Before something that always gets through. -/
theorem through_bind_always {x : OptionT (Prog ε σ) α} {f : α → OptionT (Prog ε σ) β} {s : σ}
    (h : ∀ a s', Through (f a) s') : Through (x >>= f) s ↔ Through x s := by
  rw [through_bind]
  constructor
  · rintro ⟨_, _, _, first, _⟩
    exact first.through
  · rintro ⟨es, a, s', first⟩
    exact ⟨es, a, s', first, h a s'⟩

/-! ## What is never emitted -/

section confined
variable {inv : σ → Prop} {shown : ε → Prop}

theorem confined_exit : (failure : OptionT (Prog ε σ) α).run.Confined inv shown :=
  confined_pure none

theorem confined_through (a : α) : (pure a : OptionT (Prog ε σ) α).run.Confined inv shown :=
  confined_pure (some a)

theorem Confined.lift {p : Prog ε σ α} (h : p.Confined inv shown) :
    (OptionT.lift p).run.Confined inv shown :=
  h.bind fun a => confined_pure (some a)

/-- What comes after is only asked about the results there can be. -/
theorem Confined.then_passed {x : OptionT (Prog ε σ) α} {f : α → OptionT (Prog ε σ) β}
    (h : x.run.Confined inv shown)
    (hf : ∀ {s es a s'}, Passes x s es a s' → (f a).run.Confined inv shown) :
    (x >>= f).run.Confined inv shown := by
  rw [OptionT.run_bind, Option.elimM]
  apply h.bind_returned
  intro s es r s' run
  cases r with
  | none => exact confined_pure none
  | some a => exact hf run

theorem Confined.then {x : OptionT (Prog ε σ) α} {f : α → OptionT (Prog ε σ) β}
    (h : x.run.Confined inv shown) (hf : ∀ a, (f a).run.Confined inv shown) :
    (x >>= f).run.Confined inv shown :=
  h.then_passed fun {_ _ a _} _ => hf a

end confined

section completes
variable {inv : σ → Prop} {shown : ε → Prop}

theorem completes_exit : (failure : OptionT (Prog ε σ) α).run.Completes inv shown :=
  completes_pure none

theorem completes_through (a : α) : (pure a : OptionT (Prog ε σ) α).run.Completes inv shown :=
  completes_pure (some a)

theorem Completes.lift {p : Prog ε σ α} (h : p.Completes inv shown) :
    (OptionT.lift p).run.Completes inv shown :=
  h.bind fun a => completes_pure (some a)

theorem Completes.then {x : OptionT (Prog ε σ) α} {f : α → OptionT (Prog ε σ) β}
    (h : x.run.Completes inv shown) (hf : ∀ a, (f a).run.Completes inv shown) :
    (x >>= f).run.Completes inv shown := by
  rw [OptionT.run_bind, Option.elimM]
  apply h.bind
  intro r
  cases r with
  | none => exact completes_pure none
  | some a => exact hf a

theorem Completes.weaken {p : Prog ε σ α} {shown' : ε → Prop} (h : p.Completes inv shown)
    (more : ∀ e, shown e → shown' e) : p.Completes inv shown' := by
  intro s start
  obtain ⟨es, a, s', run, kept, events⟩ := h s start
  exact ⟨es, a, s', run, kept, fun e he => more e (events e he)⟩

end completes

theorem Passes.of_run {x : OptionT (Prog ε σ) α} {n : Nat} {s : σ} {a : α}
    (h : (x.run.run n s).value = some (some a)) :
    Passes x s (x.run.run n s).events a (x.run.run n s).state :=
  ⟨n, by rw [← h]⟩

end Imp.Prog
