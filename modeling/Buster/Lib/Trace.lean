import Buster.Lib.Prog

/-!
# What can be seen of a program

A run may hang, so what it emits is said of any point of it:

* `Emitted` collects what a program can be seen to emit, with one rule for each
  construct, as `Returns` has;
* `Confined` and `Completes` bound what is emitted, the second one of programs
  that always return;
* `Traces` and `Opens` fix it, as seen through a view of the events.
-/

namespace Imp

namespace Prog

variable {ε σ α β γ : Type}

/-! ## What a program emits -/

/-- At some point of the run from `s` the events `es` have been emitted. -/
def Emitted (p : Prog ε σ α) (s : σ) (es : List ε) : Prop := ∃ n, es <+: (p.run n s).events

theorem Returns.emitted {p : Prog ε σ α} {s s' : σ} {es : List ε} {a : α}
    (h : p.Returns s es a s') : p.Emitted s es := by
  obtain ⟨n, h⟩ := h
  exact ⟨n, by simp [h]⟩

/-- What a returning run has emitted at any point is the beginning of what it
emits in all. -/
theorem Returns.continues {p : Prog ε σ α} {s s' : σ} {es early : List ε} {a : α}
    (h : p.Returns s es a s') (he : p.Emitted s early) : early <+: es := by
  obtain ⟨n, h⟩ := h
  obtain ⟨m, he⟩ := he
  have grows := he.trans (p.mono (s := s) (Nat.le_max_left m n)).2
  rwa [Returns.of_le h (Nat.le_max_right m n)] at grows

theorem cut_of_prefix {es a b : List ε} (h : es <+: a ++ b) :
    es <+: a ∨ ∃ c, es = a ++ c ∧ c <+: b := by
  obtain ⟨rest, h⟩ := h
  rcases List.append_eq_append_iff.mp h with ⟨c, ha, _⟩ | ⟨c, he, hb⟩
  · exact .inl ⟨c, ha.symm⟩
  · exact .inr ⟨c, he, rest, hb.symm⟩

theorem emitted_bind {p : Prog ε σ α} {f : α → Prog ε σ β} {s : σ} {es : List ε} :
    (p >>= f).Emitted s es ↔ p.Emitted s es ∨ ∃ es₁ a s' es₂,
      p.Returns s es₁ a s' ∧ (f a).Emitted s' es₂ ∧ es = es₁ ++ es₂ := by
  constructor
  · rintro ⟨n, h⟩
    have h : es <+: ((p.run n s).bind fun a s' => (f a).run n s').events := h
    rcases hp : p.run n s with ⟨_ | a, s', es₁⟩
    · exact .inl ⟨n, by simpa [hp, Outcome.bind] using h⟩
    · simp only [hp, Outcome.bind] at h
      rcases cut_of_prefix h with h | ⟨es₂, rfl, h₂⟩
      · exact .inl ⟨n, by simpa [hp] using h⟩
      · exact .inr ⟨es₁, a, s', es₂, ⟨n, hp⟩, ⟨n, h₂⟩, rfl⟩
  · rintro (⟨n, h⟩ | ⟨es₁, a, s', es₂, ⟨m, hm⟩, ⟨n, hn⟩, rfl⟩)
    · refine ⟨n, h.trans ?_⟩
      change _ <+: ((p.run n s).bind _).events
      cases hv : (p.run n s).value with
      | none => simp [Outcome.bind, hv]
      | some a => simp [Outcome.bind, hv]
    · refine ⟨max m n, ?_⟩
      change _ <+: ((p.run (max m n) s).bind _).events
      have later := hn.trans ((f a).mono (s := s') (Nat.le_max_right m n)).2
      rw [Returns.of_le hm (Nat.le_max_left m n)]
      simpa [Outcome.bind, List.prefix_append_right_inj] using later

/-- Past a part that returns, a run has emitted that part's events and more. -/
theorem Returns.emitted_bind {p : Prog ε σ α} {f : α → Prog ε σ β} {s s' : σ} {es es' : List ε}
    {a : α} (h : p.Returns s es a s') :
    (p >>= f).Emitted s es' ↔ es' <+: es ∨ ∃ more, (f a).Emitted s' more ∧ es' = es ++ more := by
  rw [Prog.emitted_bind]
  constructor
  · rintro (early | ⟨es₁, a₁, s₁, more, first, later, rfl⟩)
    · exact .inl (h.continues early)
    · obtain ⟨rfl, rfl, rfl⟩ := h.unique first
      exact .inr ⟨more, later, rfl⟩
  · rintro (early | ⟨more, later, rfl⟩)
    · obtain ⟨n, hn⟩ := h
      exact .inl ⟨n, by simpa [hn] using early⟩
    · exact .inr ⟨es, a, s', more, h, later, rfl⟩

/-- What a loop has emitted comes from rounds that went on and from the one it is in. -/
theorem loop_emitted {body : β → Prog ε σ (β ⊕ α)} {b : β} {s : σ} {es : List ε}
    (h : (loop body b).Emitted s es) : ∃ k es₁ b' s' es₂,
      Steps body k b s es₁ b' s' ∧ (body b').Emitted s' es₂ ∧ es = es₁ ++ es₂ := by
  obtain ⟨n, h⟩ := h
  have h : es <+: (rounds body n n b s).events := h
  suffices rest : ∀ k b s es, es <+: (rounds body n k b s).events → ∃ k es₁ b' s' es₂,
      Steps body k b s es₁ b' s' ∧ (body b').Emitted s' es₂ ∧ es = es₁ ++ es₂ from
    rest n b s es h
  intro k
  induction k with
  | zero =>
    intro b s es h
    obtain rfl : es = [] := by simpa [rounds] using h
    exact ⟨0, [], b, s, [], ⟨rfl, rfl, rfl⟩, ⟨0, List.nil_prefix⟩, rfl⟩
  | succ k ih =>
    intro b s es h
    have inside (h : es <+: ((body b).run n s).events) : ∃ k es₁ b' s' es₂,
        Steps body k b s es₁ b' s' ∧ (body b').Emitted s' es₂ ∧ es = es₁ ++ es₂ :=
      ⟨0, [], b, s, es, ⟨rfl, rfl, rfl⟩, ⟨n, h⟩, rfl⟩
    simp only [rounds] at h
    rcases hb : (body b).run n s with ⟨_ | next | a, s', es₁⟩
    · exact inside (by simpa [hb, Outcome.bind] using h)
    · simp only [hb, Outcome.bind] at h
      rcases cut_of_prefix h with h | ⟨es₂, rfl, h₂⟩
      · exact inside (by simpa [hb] using h)
      · obtain ⟨k, es, b', t, es', steps, last, rfl⟩ := ih next s' es₂ h₂
        exact ⟨k + 1, es₁ ++ es, b', t, es', ⟨es₁, next, s', es, ⟨n, hb⟩, steps, rfl⟩, last,
          (List.append_assoc ..).symm⟩
    · exact inside (by simpa [hb, Outcome.bind] using h)

theorem emitted_loop {body : β → Prog ε σ (β ⊕ α)} {b : β} {s : σ} {es : List ε} :
    (loop body b).Emitted s es ↔ (body b).Emitted s es ∨ ∃ es₁ next s' es₂,
      (body b).Returns s es₁ (.inl next) s' ∧ (loop body next).Emitted s' es₂ ∧
        es = es₁ ++ es₂ := by
  constructor
  · rintro ⟨n, h⟩
    have h : es <+: (rounds body n n b s).events := h
    cases n with
    | zero =>
      obtain rfl : es = [] := by simpa [rounds] using h
      exact .inl ⟨0, List.nil_prefix⟩
    | succ n =>
      simp only [rounds] at h
      rcases hb : (body b).run (n + 1) s with ⟨_ | next | a, s', es₁⟩
      · exact .inl ⟨n + 1, by simpa [hb, Outcome.bind] using h⟩
      · simp only [hb, Outcome.bind] at h
        rcases cut_of_prefix h with h | ⟨es₂, rfl, h₂⟩
        · exact .inl ⟨n + 1, by simpa [hb] using h⟩
        · have more := (rounds_mono body (Nat.le_refl (n + 1)) (Nat.le_succ n) next s').2
          exact .inr ⟨es₁, next, s', es₂, ⟨n + 1, hb⟩, ⟨n + 1, h₂.trans more⟩, rfl⟩
      · exact .inl ⟨n + 1, by simpa [hb, Outcome.bind] using h⟩
  · rintro (⟨n, h⟩ | ⟨es₁, next, s', es₂, ⟨m, hm⟩, ⟨n, hn⟩, rfl⟩)
    · refine ⟨n + 1, ?_⟩
      change _ <+: ((((body b).run (n + 1) s).bind _).events)
      have later := h.trans ((body b).mono (s := s) (Nat.le_succ n)).2
      cases hv : ((body b).run (n + 1) s).value with
      | none => simpa [Outcome.bind, hv] using later
      | some r => simpa [Outcome.bind, hv] using later.trans (List.prefix_append _ _)
    · refine ⟨max m n + 1, ?_⟩
      change _ <+: (rounds body (max m n + 1) (max m n + 1) b s).events
      have first := Returns.of_le hm (show m ≤ max m n + 1 by omega)
      have hn : es₂ <+: (rounds body n n next s').events := hn
      have later := hn.trans
        (rounds_mono body (show n ≤ max m n + 1 by omega) (Nat.le_max_right m n) next s').2
      simpa [rounds, first, Outcome.bind, List.prefix_append_right_inj] using later

/-- Rounds that go on are seen whatever comes after them. -/
theorem Steps.emitted {body : β → Prog ε σ (β ⊕ α)} {k : Nat} {b b' : β} {s s' : σ}
    {es : List ε} (h : Steps body k b s es b' s') : (loop body b).Emitted s es := by
  induction k generalizing b s es with
  | zero =>
    obtain ⟨rfl, _⟩ := h
    exact ⟨0, List.nil_prefix⟩
  | succ k ih =>
    obtain ⟨es₁, next, s₁, es₂, first, later, rfl⟩ := h
    exact emitted_loop.mpr (.inr ⟨es₁, next, s₁, es₂, first, ih later, rfl⟩)

/-- A loop whose every round goes on hangs, and shows only what its rounds emit. -/
theorem loop_hangs (body : β → Prog ε σ (β ⊕ α)) (inv : β → σ → Prop) (shown : ε → Prop)
    (round : ∀ {b s}, inv b s → ∃ es b' s',
      (body b).Returns s es (.inl b') s' ∧ inv b' s' ∧ ∀ e ∈ es, shown e)
    {b : β} {s : σ} (start : inv b s) :
    ¬ (loop body b).Ends s ∧ ∀ es, (loop body b).Emitted s es → ∀ e ∈ es, shown e := by
  have keeps {b s es b' s'} (h : inv b s) (hr : (body b).Returns s es (.inl b') s') :
      inv b' s' := by
    obtain ⟨_, _, _, hr', next, _⟩ := round h
    obtain ⟨_, same, rfl⟩ := hr.unique hr'
    cases same
    exact next
  constructor
  · rintro ⟨es, a, s', h⟩
    obtain ⟨k, _, b', t, _, steps, last, _⟩ := loop_returns_iff.mp h
    obtain ⟨_, _, _, goes, _⟩ := round (steps.invariant keeps start)
    cases (last.unique goes).2.1
  · intro es h
    obtain ⟨k, es₁, b', t, es₂, steps, last, rfl⟩ := loop_emitted h
    clear h
    induction k generalizing b s es₁ with
    | zero =>
      obtain ⟨rfl, rfl, rfl⟩ := steps
      obtain ⟨es, _, _, goes, _, quiet⟩ := round start
      intro e he
      exact quiet e ((goes.continues last).subset (by simpa using he))
    | succ k ih =>
      obtain ⟨es, next, s₁, es₁, first, later, rfl⟩ := steps
      obtain ⟨_, _, _, goes, _, quiet⟩ := round start
      obtain ⟨rfl, _, _⟩ := first.unique goes
      have rest := ih (keeps start first) es₁ later
      intro e he
      rw [List.append_assoc, List.mem_append] at he
      exact he.elim (quiet e) (rest e)

/-- When every round of a loop returns and does `T`, what the loop has emitted
begins what a number of rounds emit. -/
theorem emitted_of_rounds {body : β → Prog ε σ (β ⊕ α)} {inv : β → σ → Prop}
    {T : σ → List ε → σ → Prop}
    (append : ∀ {s es s' fs s''}, T s es s' → T s' fs s'' → T s (es ++ fs) s'')
    (round : ∀ {b s}, inv b s → ∃ es r s', (body b).Returns s es r s' ∧ T s es s' ∧
      ∀ b', r = .inl b' → inv b' s')
    {b : β} {s : σ} {es : List ε} (start : inv b s) (h : (loop body b).Emitted s es) :
    ∃ all s', T s all s' ∧ es <+: all := by
  obtain ⟨k, es₁, b', t, es₂, steps, last, rfl⟩ := loop_emitted h
  clear h
  induction k generalizing b s es₁ with
  | zero =>
    obtain ⟨rfl, rfl, rfl⟩ := steps
    obtain ⟨all, r, s', returns, done, _⟩ := round start
    exact ⟨all, s', done, returns.continues last⟩
  | succ k ih =>
    obtain ⟨es, next, s₁, es₁, first, later, rfl⟩ := steps
    obtain ⟨_, r, s', returns, done, goes⟩ := round start
    obtain ⟨rfl, rfl, rfl⟩ := first.unique returns
    obtain ⟨all, s', rest, begins⟩ := ih (goes next rfl) es₁ later
    refine ⟨es ++ all, s', append done rest, ?_⟩
    rwa [List.append_assoc, List.prefix_append_right_inj]

/-! ## What a program never does -/

/-- Started in `inv`, the program stays in it and emits nothing but what is `shown`,
whether it returns or not. -/
def Confined (inv : σ → Prop) (shown : ε → Prop) (p : Prog ε σ α) : Prop :=
  ∀ n s, inv s → inv (p.run n s).state ∧ ∀ e ∈ (p.run n s).events, shown e

section confined
variable {inv : σ → Prop} {shown : ε → Prop}

theorem Confined.returns {p : Prog ε σ α} (h : p.Confined inv shown) {s s' : σ} {es : List ε}
    {a : α} (start : inv s) (run : p.Returns s es a s') : inv s' ∧ ∀ e ∈ es, shown e := by
  obtain ⟨n, run⟩ := run
  have kept := h n s start
  rwa [run] at kept

theorem Confined.emitted {p : Prog ε σ α} (h : p.Confined inv shown) {s : σ} {es : List ε}
    (start : inv s) (run : p.Emitted s es) : ∀ e ∈ es, shown e := by
  obtain ⟨n, run⟩ := run
  intro e he
  exact (h n s start).2 e (run.subset he)

theorem Confined.weaken {p : Prog ε σ α} {shown' : ε → Prop} (h : p.Confined inv shown)
    (more : ∀ e, shown e → shown' e) : p.Confined inv shown' := by
  intro n s start
  exact ⟨(h n s start).1, fun e he => more e ((h n s start).2 e he)⟩

theorem confined_pure (a : α) : (pure a : Prog ε σ α).Confined inv shown := by
  intro n s start
  exact ⟨start, by intro e he; cases he⟩

theorem confined_get : (get : Prog ε σ σ).Confined inv shown := by
  intro n s start
  exact ⟨start, by intro e he; cases he⟩

theorem confined_modify {f : σ → σ} (h : ∀ s, inv s → inv (f s)) :
    (modify f : Prog ε σ Unit).Confined inv shown := by
  intro n s start
  exact ⟨h s start, by intro e he; cases he⟩

theorem confined_emit {e : ε} (h : shown e) : (emit e : Prog ε σ Unit).Confined inv shown := by
  intro n s start
  refine ⟨start, ?_⟩
  intro e' he
  rwa [List.mem_singleton.mp he]

theorem Confined.outcome_bind {o : Outcome ε σ α} {f : α → σ → Outcome ε σ β}
    (h : inv o.state ∧ ∀ e ∈ o.events, shown e)
    (hf : ∀ a, o.value = some a →
      inv (f a o.state).state ∧ ∀ e ∈ (f a o.state).events, shown e) :
    inv (o.bind f).state ∧ ∀ e ∈ (o.bind f).events, shown e := by
  obtain ⟨kept, quiet⟩ := h
  cases ended : o.value with
  | none => simpa [Outcome.bind, ended] using ⟨kept, quiet⟩
  | some a =>
    obtain ⟨kept', quiet'⟩ := hf a ended
    simp only [Outcome.bind, ended, List.mem_append]
    exact ⟨kept', fun e he => he.elim (quiet e) (quiet' e)⟩

theorem returns_of_value {p : Prog ε σ α} {n : Nat} {s : σ} {a : α}
    (ended : (p.run n s).value = some a) :
    p.Returns s (p.run n s).events a (p.run n s).state := by
  refine ⟨n, ?_⟩
  rw [← ended]

/-- What comes after is only asked about the results there can be. -/
theorem Confined.bind_returned {p : Prog ε σ α} {f : α → Prog ε σ β} (h : p.Confined inv shown)
    (hf : ∀ {s es a s'}, p.Returns s es a s' → (f a).Confined inv shown) :
    (p >>= f).Confined inv shown := by
  intro n s start
  have first := h n s start
  exact Confined.outcome_bind first fun a ended => hf (returns_of_value ended) n _ first.1

theorem Confined.bind {p : Prog ε σ α} {f : α → Prog ε σ β} (h : p.Confined inv shown)
    (hf : ∀ a, (f a).Confined inv shown) : (p >>= f).Confined inv shown :=
  h.bind_returned fun {_ _ a _} _ => hf a

/-- A loop is confined when its rounds are, from all variables it can come to. -/
theorem confined_loop_of {body : β → Prog ε σ (β ⊕ α)} {P : β → Prop}
    (h : ∀ b, P b → (body b).Confined inv shown)
    (next : ∀ {b s es b' s'}, P b → (body b).Returns s es (.inl b') s' → P b')
    {b : β} (first : P b) : (loop body b).Confined inv shown := by
  intro n s start
  suffices rest : ∀ k b s, P b → inv s →
      inv (rounds body n k b s).state ∧ ∀ e ∈ (rounds body n k b s).events, shown e from
    rest n b s first start
  intro k
  induction k with
  | zero => intro b s _ start; exact ⟨start, by intro e he; cases he⟩
  | succ k ih =>
    intro b s first start
    have round := h b first n s start
    refine Confined.outcome_bind round fun r ended => ?_
    cases r with
    | inl b' => exact ih b' _ (next first (returns_of_value ended)) round.1
    | inr a => exact ⟨round.1, by intro e he; cases he⟩

theorem confined_loop {body : β → Prog ε σ (β ⊕ α)} (h : ∀ b, (body b).Confined inv shown)
    (b : β) : (loop body b).Confined inv shown :=
  confined_loop_of (P := fun _ => True) (fun b _ => h b) (fun _ _ => trivial) trivial

/-- Where nothing is asked of the state, being confined is about what can be seen. -/
theorem confined_of_emitted {p : Prog ε σ α} (h : ∀ s es, p.Emitted s es → ∀ e ∈ es, shown e) :
    p.Confined (fun _ => True) shown :=
  fun n s _ => ⟨trivial, h s _ ⟨n, List.prefix_rfl⟩⟩

/-- One round, and the loop from wherever it goes on. -/
theorem Confined.loop_round {body : β → Prog ε σ (β ⊕ α)} {b : β}
    (h : (body b).Confined (fun _ => True) shown)
    (rest : ∀ {s es b' s'}, (body b).Returns s es (.inl b') s' →
      (loop body b').Confined (fun _ => True) shown) :
    (loop body b).Confined (fun _ => True) shown := by
  apply confined_of_emitted
  intro s es emitted
  rcases emitted_loop.mp emitted with early | ⟨es₁, next, s', es₂, first, later, rfl⟩
  · exact h.emitted trivial early
  · exact List.forall_mem_append.mpr
      ⟨(h.returns trivial first).2, (rest first).emitted trivial later⟩

end confined

/-- Started in `inv`, the program returns, in `inv` again, and emits nothing but
what is `shown`. -/
def Completes (inv : σ → Prop) (shown : ε → Prop) (p : Prog ε σ α) : Prop :=
  ∀ s, inv s → ∃ es a s', p.Returns s es a s' ∧ inv s' ∧ ∀ e ∈ es, shown e

section completes
variable {inv : σ → Prop} {shown : ε → Prop}

theorem completes_pure (a : α) : (pure a : Prog ε σ α).Completes inv shown := by
  intro s start
  exact ⟨[], a, s, pure_returns a s, start, by intro e he; cases he⟩

theorem completes_get : (get : Prog ε σ σ).Completes inv shown := by
  intro s start
  exact ⟨[], s, s, get_returns s, start, by intro e he; cases he⟩

theorem completes_modify {f : σ → σ} (h : ∀ s, inv s → inv (f s)) :
    (modify f : Prog ε σ Unit).Completes inv shown := by
  intro s start
  exact ⟨[], (), f s, modify_returns f s, h s start, by intro e he; cases he⟩

theorem completes_emit {e : ε} (h : shown e) : (emit e : Prog ε σ Unit).Completes inv shown := by
  intro s start
  refine ⟨[e], (), s, emit_returns e s, start, ?_⟩
  intro e' he
  rwa [List.mem_singleton.mp he]

theorem Completes.bind {p : Prog ε σ α} {f : α → Prog ε σ β} (h : p.Completes inv shown)
    (hf : ∀ a, (f a).Completes inv shown) : (p >>= f).Completes inv shown := by
  intro s start
  obtain ⟨es₁, a, s₁, first, mid, quiet⟩ := h s start
  obtain ⟨es₂, b, s₂, second, last, quiet'⟩ := hf a s₁ mid
  exact ⟨es₁ ++ es₂, b, s₂, first.bind second, last, List.forall_mem_append.mpr ⟨quiet, quiet'⟩⟩

theorem Completes.confined {p : Prog ε σ α} (h : p.Completes (fun _ => True) shown) :
    p.Confined (fun _ => True) shown := by
  apply confined_of_emitted
  intro s es emitted e he
  obtain ⟨all, a, s', run, _, quiet⟩ := h s trivial
  exact quiet e ((run.continues emitted).subset he)

end completes

/-! ## What can be seen of a program -/

/-- Through `view`, the program shows `ws`: all of it when it returns, and
otherwise a beginning of it. -/
def Traces (view : ε → Option γ) (p : Prog ε σ α) (ws : List γ) : Prop :=
  ∀ s, (∀ es, p.Emitted s es → es.filterMap view <+: ws) ∧
    ∀ es a s', p.Returns s es a s' → es.filterMap view = ws

section traces
variable {view : ε → Option γ} {ws vs : List γ}

theorem Traces.bind {p : Prog ε σ α} {f : α → Prog ε σ β} (h : p.Traces view ws)
    (hf : ∀ a, (f a).Traces view vs) : (p >>= f).Traces view (ws ++ vs) := by
  intro s
  constructor
  · intro es emitted
    rcases emitted_bind.mp emitted with early | ⟨es₁, a, s₁, es₂, first, later, rfl⟩
    · exact ((h s).1 es early).trans (List.prefix_append _ _)
    · rw [List.filterMap_append, (h s).2 _ _ _ first, List.prefix_append_right_inj]
      exact (hf a s₁).1 es₂ later
  · intro es b s' returned
    obtain ⟨es₁, a, s₁, es₂, first, rest, rfl⟩ := returns_bind.mp returned
    rw [List.filterMap_append, (h s).2 _ _ _ first, (hf a s₁).2 _ _ _ rest]

/-- Past a part that shows nothing and always comes to the same result. -/
theorem Traces.after {p : Prog ε σ α} {f : α → Prog ε σ β} {a : α}
    (h : ∀ s, ∃ es s', p.Returns s es a s' ∧ es.filterMap view = [])
    (hf : (f a).Traces view ws) : (p >>= f).Traces view ws := by
  intro s
  obtain ⟨es₁, s₁, first, none⟩ := h s
  constructor
  · intro es emitted
    rcases first.emitted_bind.mp emitted with early | ⟨more, later, rfl⟩
    · exact (none ▸ early.filterMap view).trans List.nil_prefix
    · rw [List.filterMap_append, none]
      exact (hf s₁).1 more later
  · intro es b s' returned
    obtain ⟨es', a', s₂, es₂, first', rest, rfl⟩ := returns_bind.mp returned
    obtain ⟨rfl, rfl, rfl⟩ := first.unique first'
    rw [List.filterMap_append, none]
    exact (hf s₁).2 _ _ _ rest

theorem filterMap_hidden {shown : ε → Prop} (hidden : ∀ e, shown e → view e = none) {es : List ε}
    (h : ∀ e ∈ es, shown e) : es.filterMap view = [] :=
  List.filterMap_eq_nil_iff.mpr fun e he => hidden e (h e he)

theorem Confined.traces {shown : ε → Prop} {p : Prog ε σ α}
    (h : p.Confined (fun _ => True) shown) (hidden : ∀ e, shown e → view e = none) :
    p.Traces view [] := by
  intro s
  constructor
  · intro es emitted
    have none := filterMap_hidden hidden (h.emitted trivial emitted)
    exact none ▸ List.nil_prefix
  · intro es a s' returned
    exact filterMap_hidden hidden (h.returns trivial returned).2

theorem traces_pure (a : α) : (pure a : Prog ε σ α).Traces view [] := by
  have none : (pure a : Prog ε σ α).Confined (fun _ => True) fun _ => False := confined_pure a
  exact none.traces fun _ => False.elim

theorem traces_emit {e : ε} : (emit e : Prog ε σ Unit).Traces view ([e].filterMap view) := by
  intro s
  constructor
  · intro es emitted
    exact ((emit_returns e s).continues emitted).filterMap view
  · intro es u s' returned
    obtain ⟨rfl, _⟩ := returns_emit.mp returned
    rfl

theorem Traces.loop_exit {body : β → Prog ε σ (β ⊕ α)} {b : β} (h : (body b).Traces view ws)
    (stops : ∀ {s es r s'}, (body b).Returns s es r s' → ∃ a, r = .inr a) :
    (loop body b).Traces view ws := by
  intro s
  constructor
  · intro es emitted
    rcases emitted_loop.mp emitted with early | ⟨_, _, _, _, first, _⟩
    · exact (h s).1 es early
    · obtain ⟨a, same⟩ := stops first
      cases same
  · intro es a s' returned
    rcases returns_loop.mp returned with last | ⟨_, _, _, _, first, _⟩
    · exact (h s).2 _ _ _ last
    · obtain ⟨a, same⟩ := stops first
      cases same

theorem Traces.loop_next {body : β → Prog ε σ (β ⊕ α)} {b next : β} (h : (body b).Traces view ws)
    (goes : ∀ {s es r s'}, (body b).Returns s es r s' → r = .inl next)
    (rest : (loop body next).Traces view vs) : (loop body b).Traces view (ws ++ vs) := by
  intro s
  constructor
  · intro es emitted
    rcases emitted_loop.mp emitted with early | ⟨es₁, b', s₁, es₂, first, later, rfl⟩
    · exact ((h s).1 es early).trans (List.prefix_append _ _)
    · cases goes first
      rw [List.filterMap_append, (h s).2 _ _ _ first, List.prefix_append_right_inj]
      exact (rest s₁).1 es₂ later
  · intro es a s' returned
    rcases returns_loop.mp returned with last | ⟨es₁, b', s₁, es₂, first, later, rfl⟩
    · cases goes last
    · cases goes first
      rw [List.filterMap_append, (h s).2 _ _ _ first, (rest s₁).2 _ _ _ later]

/-- Through `view`, the program shows `ws` before anything else. -/
def Opens (view : ε → Option γ) (p : Prog ε σ α) (ws : List γ) : Prop :=
  ∀ s, (∀ es, p.Emitted s es → es.filterMap view <+: ws ∨ ws <+: es.filterMap view) ∧
    ∀ es a s', p.Returns s es a s' → ws <+: es.filterMap view

theorem Traces.opens_bind {p : Prog ε σ α} {f : α → Prog ε σ β} (h : p.Traces view ws)
    (hf : ∀ a, (f a).Opens view vs) : (p >>= f).Opens view (ws ++ vs) := by
  intro s
  constructor
  · intro es emitted
    rcases emitted_bind.mp emitted with early | ⟨es₁, a, s₁, es₂, first, later, rfl⟩
    · exact .inl (((h s).1 es early).trans (List.prefix_append _ _))
    · rw [List.filterMap_append, (h s).2 _ _ _ first, List.prefix_append_right_inj,
        List.prefix_append_right_inj]
      exact (hf a s₁).1 es₂ later
  · intro es b s' returned
    obtain ⟨es₁, a, s₁, es₂, first, rest, rfl⟩ := returns_bind.mp returned
    rw [List.filterMap_append, (h s).2 _ _ _ first, List.prefix_append_right_inj]
    exact (hf a s₁).2 _ _ _ rest

theorem Traces.opens_loop {body : β → Prog ε σ (β ⊕ α)} {b : β} (h : (body b).Traces view ws) :
    (loop body b).Opens view ws := by
  intro s
  constructor
  · intro es emitted
    rcases emitted_loop.mp emitted with early | ⟨es₁, next, s₁, es₂, first, _, rfl⟩
    · exact .inl ((h s).1 es early)
    · rw [List.filterMap_append, (h s).2 _ _ _ first]
      exact .inr (List.prefix_append _ _)
  · intro es a s' returned
    rcases returns_loop.mp returned with last | ⟨es₁, next, s₁, es₂, first, _, rfl⟩
    · exact (h s).2 _ _ _ last ▸ List.prefix_rfl
    · rw [List.filterMap_append, (h s).2 _ _ _ first]
      exact List.prefix_append _ _

end traces

end Prog

end Imp
