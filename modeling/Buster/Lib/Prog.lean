import Mathlib.Data.List.Basic
import Mathlib.Logic.Function.Iterate

/-!
# Imperative programs run with fuel

A program reads and changes a state, emits events, and may loop for ever. Fuel
bounds the rounds of every single loop. A run that exhausts it is cut where it
stands, and keeps the events emitted so far:

* `Prog` carries the two laws that make fuel harmless: more fuel changes
  nothing about a run that returned, and only continues one that was cut;
* `Returns` is the big-step meaning without fuel, with one rule for each
  construct (`returns_pure`, `returns_bind`, `returns_loop`, ...).
-/

namespace Imp

/-- Where a run stands: `value` is `none` when the fuel ran out. -/
structure Outcome (ε σ α : Type) where
  value : Option α
  state : σ
  events : List ε
  deriving DecidableEq, Repr

variable {ε σ α β γ : Type}

/-- Continue a run that returned; one that was cut stays where it is. -/
def Outcome.bind (o : Outcome ε σ α) (f : α → σ → Outcome ε σ β) : Outcome ε σ β :=
  match o.value with
  | none => ⟨none, o.state, o.events⟩
  | some a =>
    let next := f a o.state
    ⟨next.value, next.state, o.events ++ next.events⟩

/-- `later` continues `earlier`: the same run if that one had returned, and in
any case at least its events. -/
def Outcome.Extends (earlier later : Outcome ε σ α) : Prop :=
  (earlier.value.isSome → later = earlier) ∧ earlier.events <+: later.events

theorem Outcome.Extends.refl (o : Outcome ε σ α) : o.Extends o := ⟨fun _ => rfl, List.prefix_rfl⟩

theorem Outcome.Extends.bind {o o' : Outcome ε σ α} {f g : α → σ → Outcome ε σ β}
    (h : o.Extends o') (hf : ∀ a s, (f a s).Extends (g a s)) :
    (o.bind f).Extends (o'.bind g) := by
  cases o with | mk value state events =>
  cases value with
  | none =>
    refine ⟨by simp [Outcome.bind], ?_⟩
    have kept : events <+: o'.events := h.2
    cases hv : o'.value with
    | none => simpa [Outcome.bind, hv] using kept
    | some a => simpa [Outcome.bind, hv] using kept.trans (List.prefix_append _ _)
  | some a =>
    have same : o' = ⟨some a, state, events⟩ := h.1 rfl
    subst same
    obtain ⟨settled, grows⟩ := hf a state
    refine ⟨fun returned => ?_, ?_⟩
    · have next := settled (by simpa [Outcome.bind] using returned)
      simp [Outcome.bind, next]
    · simpa [Outcome.bind, List.prefix_append_right_inj] using grows

structure Prog (ε σ α : Type) where
  run : Nat → σ → Outcome ε σ α
  mono : ∀ {m n s}, m ≤ n → (run m s).Extends (run n s)

namespace Prog

def ret (a : α) : Prog ε σ α where
  run _ s := ⟨some a, s, []⟩
  mono _ := .refl _

def bind (p : Prog ε σ α) (f : α → Prog ε σ β) : Prog ε σ β where
  run n s := (p.run n s).bind fun a s' => (f a).run n s'
  mono h := (p.mono h).bind fun a _ => (f a).mono h

instance : Monad (Prog ε σ) where
  pure := ret
  bind := bind

def get : Prog ε σ σ where
  run _ s := ⟨some s, s, []⟩
  mono _ := .refl _

def modify (f : σ → σ) : Prog ε σ Unit where
  run _ s := ⟨some (), f s, []⟩
  mono _ := .refl _

def emit (e : ε) : Prog ε σ Unit where
  run _ s := ⟨some (), s, [e]⟩
  mono _ := .refl _

/-- At most `k` rounds of a loop whose body says how to go on: `inl` with the
loop's variables for another round, `inr` with its result. -/
def rounds (body : β → Prog ε σ (β ⊕ α)) (fuel : Nat) : Nat → β → σ → Outcome ε σ α
  | 0, _, s => ⟨none, s, []⟩
  | k + 1, b, s => ((body b).run fuel s).bind fun
    | .inl next, s' => rounds body fuel k next s'
    | .inr a, s' => ⟨some a, s', []⟩

theorem rounds_mono (body : β → Prog ε σ (β ⊕ α)) {m n : Nat} (h : m ≤ n) :
    ∀ {j k : Nat}, j ≤ k → ∀ b s, (rounds body m j b s).Extends (rounds body n k b s) := by
  intro j
  induction j with
  | zero => intro k _ b s; exact ⟨by simp [rounds], by simp [rounds]⟩
  | succ j ih =>
    intro k hk b s
    obtain ⟨k, rfl⟩ : ∃ i, k = i + 1 := ⟨k - 1, by omega⟩
    simp only [rounds]
    refine ((body b).mono h).bind fun r s' => ?_
    cases r with
    | inl next => exact ih (by omega) next s'
    | inr a => exact .refl _

/-- `while`: every round runs with the whole fuel, and there are at most as
many rounds as there is fuel. -/
def loop (body : β → Prog ε σ (β ⊕ α)) (b : β) : Prog ε σ α where
  run n s := rounds body n n b s
  mono h := rounds_mono body h h b _

/-! ## What a program returns -/

/-- From `s`, `p` returns `a` in state `s'` after emitting `es`. -/
def Returns (p : Prog ε σ α) (s : σ) (es : List ε) (a : α) (s' : σ) : Prop :=
  ∃ n, p.run n s = ⟨some a, s', es⟩

/-- `p` returns from `s`; a program that hangs does not. -/
def Ends (p : Prog ε σ α) (s : σ) : Prop := ∃ es a s', p.Returns s es a s'

theorem Returns.of_le {p : Prog ε σ α} {s s' : σ} {es : List ε} {a : α} {m n : Nat}
    (h : p.run m s = ⟨some a, s', es⟩) (hmn : m ≤ n) : p.run n s = ⟨some a, s', es⟩ := by
  rw [(p.mono hmn).1 (by simp [h]), h]

theorem Returns.unique {p : Prog ε σ α} {s s₁ s₂ : σ} {es₁ es₂ : List ε} {a₁ a₂ : α}
    (h₁ : p.Returns s es₁ a₁ s₁) (h₂ : p.Returns s es₂ a₂ s₂) :
    es₁ = es₂ ∧ a₁ = a₂ ∧ s₁ = s₂ := by
  obtain ⟨m, hm⟩ := h₁
  obtain ⟨n, hn⟩ := h₂
  have e := (Returns.of_le hm (Nat.le_max_left m n)).symm.trans
    (Returns.of_le hn (Nat.le_max_right m n))
  simp only [Outcome.mk.injEq, Option.some.injEq] at e
  exact ⟨e.2.2, e.1, e.2.1⟩

@[simp] theorem returns_pure {a b : α} {s s' : σ} {es : List ε} :
    (pure a : Prog ε σ α).Returns s es b s' ↔ es = [] ∧ b = a ∧ s' = s := by
  constructor
  · rintro ⟨n, h⟩
    have : (⟨some a, s, []⟩ : Outcome ε σ α) = ⟨some b, s', es⟩ := h
    simp only [Outcome.mk.injEq, Option.some.injEq] at this
    exact ⟨this.2.2.symm, this.1.symm, this.2.1.symm⟩
  · rintro ⟨rfl, rfl, rfl⟩
    exact ⟨0, rfl⟩

theorem returns_bind {p : Prog ε σ α} {f : α → Prog ε σ β} {s s'' : σ} {es : List ε} {b : β} :
    (p >>= f).Returns s es b s'' ↔ ∃ es₁ a s' es₂,
      p.Returns s es₁ a s' ∧ (f a).Returns s' es₂ b s'' ∧ es = es₁ ++ es₂ := by
  constructor
  · rintro ⟨n, h⟩
    have h : (p.run n s).bind (fun a s' => (f a).run n s') = ⟨some b, s'', es⟩ := h
    rcases hp : p.run n s with ⟨_ | a, s', es₁⟩
    · simp [hp, Outcome.bind] at h
    · rcases hf : (f a).run n s' with ⟨value, state, es₂⟩
      simp only [hp, hf, Outcome.bind, Outcome.mk.injEq] at h
      obtain ⟨rfl, rfl, rfl⟩ := h
      exact ⟨es₁, a, s', es₂, ⟨n, hp⟩, ⟨n, hf⟩, rfl⟩
  · rintro ⟨es₁, a, s', es₂, ⟨m, hm⟩, ⟨n, hn⟩, rfl⟩
    refine ⟨max m n, ?_⟩
    change (p.run (max m n) s).bind _ = _
    rw [Returns.of_le hm (Nat.le_max_left m n)]
    simp only [Outcome.bind, Returns.of_le hn (Nat.le_max_right m n)]

theorem Returns.bind {p : Prog ε σ α} {f : α → Prog ε σ β} {s s' s'' : σ} {es es' : List ε}
    {a : α} {b : β} (h : p.Returns s es a s') (hf : (f a).Returns s' es' b s'') :
    (p >>= f).Returns s (es ++ es') b s'' :=
  returns_bind.mpr ⟨es, a, s', es', h, hf, rfl⟩

theorem Returns.ends {p : Prog ε σ α} {s s' : σ} {es : List ε} {a : α}
    (h : p.Returns s es a s') : p.Ends s := ⟨es, a, s', h⟩

theorem Returns.ends_bind {p : Prog ε σ α} {f : α → Prog ε σ β} {s s' : σ} {es : List ε} {a : α}
    (h : p.Returns s es a s') : (p >>= f).Ends s ↔ (f a).Ends s' := by
  constructor
  · rintro ⟨_, b, s'', run⟩
    obtain ⟨_, a₁, s₁, es₂, first, rest, _⟩ := returns_bind.mp run
    obtain ⟨_, rfl, rfl⟩ := h.unique first
    exact ⟨es₂, b, s'', rest⟩
  · rintro ⟨es', b, s'', rest⟩
    exact (h.bind rest).ends

theorem ends_bind {p : Prog ε σ α} {f : α → Prog ε σ β} {s : σ} (hf : ∀ a s', (f a).Ends s') :
    (p >>= f).Ends s ↔ p.Ends s := by
  constructor
  · rintro ⟨_, b, s'', run⟩
    obtain ⟨_, _, _, _, first, _⟩ := returns_bind.mp run
    exact first.ends
  · rintro ⟨es, a, s', first⟩
    exact first.ends_bind.mpr (hf a s')

/-- What a run does past a part that is known to return. -/
theorem Returns.rest {p : Prog ε σ α} {f : α → Prog ε σ β} {s s' s'' : σ} {es all : List ε} {a : α}
    {b : β} (h : p.Returns s es a s') (run : (p >>= f).Returns s all b s'') :
    ∃ more, all = es ++ more ∧ (f a).Returns s' more b s'' := by
  obtain ⟨_, a₁, s₁, more, first, rest, rfl⟩ := returns_bind.mp run
  obtain ⟨rfl, rfl, rfl⟩ := h.unique first
  exact ⟨more, rfl, rest⟩

@[simp] theorem returns_get {s s' a : σ} {es : List ε} :
    (get : Prog ε σ σ).Returns s es a s' ↔ es = [] ∧ a = s ∧ s' = s := by
  constructor
  · rintro ⟨n, h⟩
    have : (⟨some s, s, []⟩ : Outcome ε σ σ) = ⟨some a, s', es⟩ := h
    simp only [Outcome.mk.injEq, Option.some.injEq] at this
    exact ⟨this.2.2.symm, this.1.symm, this.2.1.symm⟩
  · rintro ⟨rfl, rfl, rfl⟩
    exact ⟨0, rfl⟩

@[simp] theorem returns_modify {f : σ → σ} {s s' : σ} {es : List ε} {u : Unit} :
    (modify f : Prog ε σ Unit).Returns s es u s' ↔ es = [] ∧ s' = f s := by
  constructor
  · rintro ⟨n, h⟩
    have : (⟨some (), f s, []⟩ : Outcome ε σ Unit) = ⟨some u, s', es⟩ := h
    simp only [Outcome.mk.injEq] at this
    exact ⟨this.2.2.symm, this.2.1.symm⟩
  · rintro ⟨rfl, rfl⟩
    exact ⟨0, rfl⟩

@[simp] theorem returns_emit {e : ε} {s s' : σ} {es : List ε} {u : Unit} :
    (emit e : Prog ε σ Unit).Returns s es u s' ↔ es = [e] ∧ s' = s := by
  constructor
  · rintro ⟨n, h⟩
    have : (⟨some (), s, [e]⟩ : Outcome ε σ Unit) = ⟨some u, s', es⟩ := h
    simp only [Outcome.mk.injEq] at this
    exact ⟨this.2.2.symm, this.2.1.symm⟩
  · rintro ⟨rfl, rfl⟩
    exact ⟨0, rfl⟩

theorem pure_returns (a : α) (s : σ) : (pure a : Prog ε σ α).Returns s [] a s := ⟨0, rfl⟩

theorem get_returns (s : σ) : (get : Prog ε σ σ).Returns s [] s s := ⟨0, rfl⟩

theorem modify_returns (f : σ → σ) (s : σ) : (modify f : Prog ε σ Unit).Returns s [] () (f s) :=
  ⟨0, rfl⟩

theorem emit_returns (e : ε) (s : σ) : (emit e : Prog ε σ Unit).Returns s [e] () s := ⟨0, rfl⟩

theorem rounds_of_le {body : β → Prog ε σ (β ⊕ α)} {m n j k : Nat} {b : β} {s s' : σ}
    {es : List ε} {a : α} (h : rounds body m j b s = ⟨some a, s', es⟩) (hm : m ≤ n) (hj : j ≤ k) :
    rounds body n k b s = ⟨some a, s', es⟩ := by
  rw [(rounds_mono body hm hj b s).1 (by simp [h]), h]

/-- One round: the loop either ends here or goes on from the next variables. -/
theorem returns_loop {body : β → Prog ε σ (β ⊕ α)} {b : β} {s s'' : σ} {es : List ε} {a : α} :
    (loop body b).Returns s es a s'' ↔
      (body b).Returns s es (.inr a) s'' ∨
      ∃ es₁ next s' es₂, (body b).Returns s es₁ (.inl next) s' ∧
        (loop body next).Returns s' es₂ a s'' ∧ es = es₁ ++ es₂ := by
  constructor
  · rintro ⟨n, h⟩
    have h : rounds body n n b s = ⟨some a, s'', es⟩ := h
    cases n with
    | zero => simp [rounds] at h
    | succ n =>
      simp only [rounds] at h
      rcases hb : (body b).run (n + 1) s with ⟨_ | next | a', s', es₁⟩
      · simp [hb, Outcome.bind] at h
      · right
        rcases hr : rounds body (n + 1) n next s' with ⟨value, state, es₂⟩
        simp only [hb, hr, Outcome.bind, Outcome.mk.injEq] at h
        obtain ⟨rfl, rfl, rfl⟩ := h
        exact ⟨es₁, next, s', es₂, ⟨n + 1, hb⟩,
          ⟨n + 1, rounds_of_le hr (Nat.le_refl _) (by omega)⟩, rfl⟩
      · left
        simp only [hb, Outcome.bind, List.append_nil, Outcome.mk.injEq, Option.some.injEq] at h
        obtain ⟨rfl, rfl, rfl⟩ := h
        exact ⟨n + 1, hb⟩
  · rintro (⟨n, h⟩ | ⟨es₁, next, s', es₂, ⟨m, hm⟩, ⟨n, hn⟩, rfl⟩)
    · refine ⟨n + 1, ?_⟩
      change rounds body (n + 1) (n + 1) b s = _
      simp [rounds, Returns.of_le h (Nat.le_succ n), Outcome.bind]
    · have first := Returns.of_le hm (show m ≤ max m n + 1 by omega)
      have rest : rounds body (max m n + 1) (max m n) next s' = _ :=
        rounds_of_le (show rounds body n n next s' = _ from hn) (by omega) (by omega)
      refine ⟨max m n + 1, ?_⟩
      change rounds body (max m n + 1) (max m n + 1) b s = _
      simp [rounds, first, rest, Outcome.bind]

/-- A round that goes on, before the rest of the loop and what comes after it. -/
theorem Returns.goes_on {body : β → Prog ε σ (β ⊕ α)} {f : α → Prog ε σ γ} {b next : β}
    {s s₁ s' : σ} {es fs : List ε} {c : γ} (round : (body b).Returns s es (.inl next) s₁)
    (rest : (loop body next >>= f).Returns s₁ fs c s') :
    (loop body b >>= f).Returns s (es ++ fs) c s' := by
  obtain ⟨es₁, a, s₂, es₂, later, after, rfl⟩ := returns_bind.mp rest
  rw [← List.append_assoc]
  exact (returns_loop.mpr (.inr ⟨es, next, s₁, es₁, round, later, rfl⟩)).bind after

theorem Returns.leaves {body : β → Prog ε σ (β ⊕ α)} {f : α → Prog ε σ γ} {b : β} {a : α}
    {s s₁ s' : σ} {es fs : List ε} {c : γ} (round : (body b).Returns s es (.inr a) s₁)
    (after : (f a).Returns s₁ fs c s') : (loop body b >>= f).Returns s (es ++ fs) c s' :=
  (returns_loop.mpr (.inl round)).bind after

/-- `k` rounds that all go on, from the variables `b` to `b'`. -/
def Steps (body : β → Prog ε σ (β ⊕ α)) : Nat → β → σ → List ε → β → σ → Prop
  | 0, b, s, es, b', s' => es = [] ∧ b' = b ∧ s' = s
  | k + 1, b, s, es, b', s' => ∃ es₁ next s₁ es₂,
      (body b).Returns s es₁ (.inl next) s₁ ∧ Steps body k next s₁ es₂ b' s' ∧ es = es₁ ++ es₂

theorem Steps.returns {body : β → Prog ε σ (β ⊕ α)} {k : Nat} {b b' : β} {s s' s'' : σ}
    {es₁ es₂ : List ε} {a : α} (h : Steps body k b s es₁ b' s')
    (rest : (loop body b').Returns s' es₂ a s'') : (loop body b).Returns s (es₁ ++ es₂) a s'' := by
  induction k generalizing b s es₁ with
  | zero =>
    obtain ⟨rfl, rfl, rfl⟩ := h
    exact rest
  | succ k ih =>
    obtain ⟨es, next, s₁, es', first, later, rfl⟩ := h
    exact returns_loop.mpr (.inr ⟨es, next, s₁, es' ++ es₂, first, ih later, List.append_assoc ..⟩)

/-- One more round at the end. -/
theorem Steps.snoc {body : β → Prog ε σ (β ⊕ α)} {k : Nat} {b b' b'' : β} {s s' s'' : σ}
    {es₁ es₂ : List ε} (h : Steps body k b s es₁ b' s')
    (last : (body b').Returns s' es₂ (.inl b'') s'') :
    Steps body (k + 1) b s (es₁ ++ es₂) b'' s'' := by
  induction k generalizing b s es₁ with
  | zero =>
    obtain ⟨rfl, rfl, rfl⟩ := h
    exact ⟨es₂, b'', s'', [], last, ⟨rfl, rfl, rfl⟩, (List.append_nil es₂).symm⟩
  | succ k ih =>
    obtain ⟨es, next, s₁, es', first, later, rfl⟩ := h
    exact ⟨es, next, s₁, es' ++ es₂, first, ih later, List.append_assoc ..⟩

/-- A loop returns when some number of rounds that go on is followed by one
that ends it. -/
theorem loop_returns_iff {body : β → Prog ε σ (β ⊕ α)} {b : β} {s s'' : σ} {es : List ε} {a : α} :
    (loop body b).Returns s es a s'' ↔ ∃ k es₁ b' s' es₂,
      Steps body k b s es₁ b' s' ∧ (body b').Returns s' es₂ (.inr a) s'' ∧ es = es₁ ++ es₂ := by
  constructor
  · rintro ⟨n, h⟩
    have h : rounds body n n b s = ⟨some a, s'', es⟩ := h
    suffices rest : ∀ k b s es, rounds body n k b s = ⟨some a, s'', es⟩ → ∃ k es₁ b' s' es₂,
        Steps body k b s es₁ b' s' ∧ (body b').Returns s' es₂ (.inr a) s'' ∧ es = es₁ ++ es₂ from
      rest n b s es h
    intro k
    induction k with
    | zero => intro b s es h; simp [rounds] at h
    | succ k ih =>
      intro b s es h
      simp only [rounds] at h
      rcases hb : (body b).run n s with ⟨_ | next | a', s', es₁⟩
      · simp [hb, Outcome.bind] at h
      · rcases hr : rounds body n k next s' with ⟨value, state, es₂⟩
        simp only [hb, hr, Outcome.bind, Outcome.mk.injEq] at h
        obtain ⟨rfl, rfl, rfl⟩ := h
        obtain ⟨k, es, b', t, es', steps, last, rfl⟩ := ih next s' es₂ hr
        exact ⟨k + 1, es₁ ++ es, b', t, es', ⟨es₁, next, s', es, ⟨n, hb⟩, steps, rfl⟩, last,
          (List.append_assoc ..).symm⟩
      · simp only [hb, Outcome.bind, List.append_nil, Outcome.mk.injEq, Option.some.injEq] at h
        obtain ⟨rfl, rfl, rfl⟩ := h
        exact ⟨0, [], b, s, es₁, ⟨rfl, rfl, rfl⟩, ⟨n, hb⟩, rfl⟩
  · rintro ⟨k, es₁, b', s', es₂, steps, last, rfl⟩
    exact steps.returns (returns_loop.mpr (.inl last))

/-- To show something of every loop that returns, show it of a last round, and
of a round that goes on when it holds of the rest. -/
theorem Returns.loop_induction {body : β → Prog ε σ (β ⊕ α)}
    {motive : β → σ → List ε → α → σ → Prop}
    (last : ∀ {b s es a s'}, (body b).Returns s es (.inr a) s' → motive b s es a s')
    (more : ∀ {b s es₁ next s₁ es₂ a s'}, (body b).Returns s es₁ (.inl next) s₁ →
      motive next s₁ es₂ a s' → motive b s (es₁ ++ es₂) a s')
    {b : β} {s s' : σ} {es : List ε} {a : α} (h : (loop body b).Returns s es a s') :
    motive b s es a s' := by
  obtain ⟨k, es₁, b', t, es₂, steps, stop, rfl⟩ := loop_returns_iff.mp h
  clear h
  induction k generalizing b s es₁ with
  | zero =>
    obtain ⟨rfl, rfl, rfl⟩ := steps
    exact last stop
  | succ k ih =>
    obtain ⟨es, next, s₁, es₁, first, rest, rfl⟩ := steps
    rw [List.append_assoc]
    exact more first (ih _ rest)

/-- What every round keeps holds after any number of rounds. -/
theorem Steps.invariant {body : β → Prog ε σ (β ⊕ α)} {inv : β → σ → Prop}
    (keeps : ∀ {b s es b' s'}, inv b s → (body b).Returns s es (.inl b') s' → inv b' s')
    {k : Nat} {b b' : β} {s s' : σ} {es : List ε} (h : Steps body k b s es b' s')
    (start : inv b s) : inv b' s' := by
  induction k generalizing b s es with
  | zero =>
    obtain ⟨_, rfl, rfl⟩ := h
    exact start
  | succ k ih =>
    obtain ⟨_, next, s₁, _, first, later, _⟩ := h
    exact ih later (keeps start first)

end Prog

end Imp
