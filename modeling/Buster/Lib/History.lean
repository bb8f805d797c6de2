import Buster.Lib.Trace

/-!
# Histories

A history relates the state before some events to the state after them. A
program follows a relation of histories when every run that returns is one of
them. What a run has emitted at any point has a property of its own, so that
something can be said of the runs that never return as well: that it begins a
history, or what else is kept by putting histories before it.
-/

namespace Imp

namespace Prog

variable {ε σ α β : Type}

/-- Histories that can be put one after the other, and what begins them. -/
structure Composes (R : σ → List ε → σ → Prop) (B : σ → List ε → Prop) : Prop where
  nil : ∀ s, R s [] s
  append : ∀ {s es s' fs s''}, R s es s' → R s' fs s'' → R s (es ++ fs) s''
  cut : ∀ {s all s' es}, R s all s' → es <+: all → B s es
  later : ∀ {s es s' fs}, R s es s' → B s' fs → B s (es ++ fs)

structure Follows (R : σ → List ε → σ → Prop) (B : σ → List ε → Prop) (p : Prog ε σ α) :
    Prop where
  returned : ∀ {s es a s'}, p.Returns s es a s' → R s es s'
  begun : ∀ {s es}, p.Emitted s es → B s es

variable {R : σ → List ε → σ → Prop} {B : σ → List ε → Prop}

def Begins (R : σ → List ε → σ → Prop) (s : σ) (es : List ε) : Prop :=
  ∃ all s', R s all s' ∧ es <+: all

/-- The beginnings of histories are what may come last. -/
theorem composes_begins (nil : ∀ s, R s [] s)
    (append : ∀ {s es s' fs s''}, R s es s' → R s' fs s'' → R s (es ++ fs) s'') :
    Composes R (Begins R) where
  nil := nil
  append := append
  cut done begins := ⟨_, _, done, begins⟩
  later := by
    rintro s es s' fs first ⟨all, s'', rest, begins⟩
    exact ⟨es ++ all, s'', append first rest, (List.prefix_append_right_inj es).mpr begins⟩

namespace Composes

variable (comp : Composes R B)
include comp

/-- A program that always returns has nothing else to show. -/
theorem of_returns {p : Prog ε σ α}
    (h : ∀ s, ∃ es a s', p.Returns s es a s' ∧ R s es s') : p.Follows R B where
  returned := by
    intro s es a s' run
    obtain ⟨_, _, _, run', done⟩ := h s
    obtain ⟨rfl, _, rfl⟩ := run.unique run'
    exact done
  begun := by
    intro s es emitted
    obtain ⟨all, _, s', run, done⟩ := h s
    exact comp.cut done (run.continues emitted)

/-- Events that make a history whatever there is of them, and a state that
stays what they leave it. -/
theorem of_confined {p : Prog ε σ α} {kept : σ → σ → Prop} {shown : ε → Prop}
    (refl : ∀ s, kept s s) (h : ∀ s, p.Confined (kept s) shown)
    (quiet : ∀ {s es s'}, kept s s' → (∀ e ∈ es, shown e) → R s es s') : p.Follows R B where
  returned := by
    intro s es a s' run
    obtain ⟨stays, events⟩ := (h s).returns (refl s) run
    exact quiet stays events
  begun := by
    intro s es emitted
    exact comp.cut (quiet (refl s) ((h s).emitted (refl s) emitted)) List.prefix_rfl

theorem emit {e : ε} (h : ∀ s, R s [e] s) : (emit e : Prog ε σ Unit).Follows R B :=
  comp.of_returns fun s => ⟨[e], (), s, emit_returns e s, h s⟩

theorem pure (a : α) : (pure a : Prog ε σ α).Follows R B :=
  comp.of_returns fun s => ⟨[], a, s, pure_returns a s, comp.nil s⟩

theorem bind_returned {p : Prog ε σ α} {f : α → Prog ε σ β} (h : p.Follows R B)
    (hf : ∀ {s es a s'}, p.Returns s es a s' → (f a).Follows R B) : (p >>= f).Follows R B where
  returned := by
    intro s es b s'' run
    obtain ⟨es₁, a, s', es₂, first, rest, rfl⟩ := returns_bind.mp run
    exact comp.append (h.returned first) ((hf first).returned rest)
  begun := by
    intro s es emitted
    rcases emitted_bind.mp emitted with early | ⟨es₁, a, s', es₂, first, later, rfl⟩
    · exact h.begun early
    · exact comp.later (h.returned first) ((hf first).begun later)

theorem bind {p : Prog ε σ α} {f : α → Prog ε σ β} (h : p.Follows R B)
    (hf : ∀ a, (f a).Follows R B) : (p >>= f).Follows R B :=
  comp.bind_returned h fun {_ _ a _} _ => hf a

theorem steps {body : β → Prog ε σ (β ⊕ α)} (h : ∀ b, (body b).Follows R B) {k : Nat} {b b' : β}
    {s s' : σ} {es : List ε} (rounds : Steps body k b s es b' s') : R s es s' := by
  induction k generalizing b s es with
  | zero =>
    obtain ⟨rfl, _, rfl⟩ := rounds
    exact comp.nil s'
  | succ k ih =>
    obtain ⟨es₁, next, s₁, es₂, first, later, rfl⟩ := rounds
    exact comp.append ((h b).returned first) (ih later)

theorem loop {body : β → Prog ε σ (β ⊕ α)} (h : ∀ b, (body b).Follows R B) (b : β) :
    (loop body b).Follows R B where
  returned := by
    intro s es a s'' run
    obtain ⟨k, es₁, b', s', es₂, rounds, last, rfl⟩ := loop_returns_iff.mp run
    exact comp.append (comp.steps h rounds) ((h b').returned last)
  begun := by
    intro s es emitted
    obtain ⟨k, es₁, b', s', es₂, rounds, last, rfl⟩ := loop_emitted emitted
    exact comp.later (comp.steps h rounds) ((h b').begun last)

/-- One round, and the loop from wherever it goes on. -/
theorem loop_round {body : β → Prog ε σ (β ⊕ α)} {b : β} (h : (body b).Follows R B)
    (rest : ∀ {s es b' s'}, (body b).Returns s es (.inl b') s' →
      (Prog.loop body b').Follows R B) :
    (Prog.loop body b).Follows R B where
  returned := by
    intro s es a s'' run
    rcases returns_loop.mp run with last | ⟨es₁, b', s', es₂, first, later, rfl⟩
    · exact h.returned last
    · exact comp.append (h.returned first) ((rest first).returned later)
  begun := by
    intro s es emitted
    rcases emitted_loop.mp emitted with early | ⟨es₁, b', s', es₂, first, later, rfl⟩
    · exact h.begun early
    · exact comp.later (h.returned first) ((rest first).begun later)

end Composes

end Prog

end Imp
