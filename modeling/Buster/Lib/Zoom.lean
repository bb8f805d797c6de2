import Buster.Lib.Trace

/-!
# Programs put together

`zoom` runs a program on a part of a larger state and marks its events, so that
programs written for states of their own can follow each other. `Leads` says how
far a program certainly gets, and what it is from there on.
-/

namespace Imp

namespace Prog

variable {ε ε' σ σ' α : Type}

/-- A part of a state, and what the state is when the part changes. -/
structure Part (σ' σ : Type) where
  view : σ' → σ
  put : σ → σ' → σ'

def zoom (part : Part σ' σ) (mark : ε → ε') (p : Prog ε σ α) : Prog ε' σ' α where
  run n s :=
    let o := p.run n (part.view s)
    ⟨o.value, part.put o.state s, o.events.map mark⟩
  mono {m n s} h := by
    obtain ⟨settled, grows⟩ := p.mono (s := part.view s) h
    refine ⟨fun returned => ?_, grows.map mark⟩
    rw [settled returned]

variable {part : Part σ' σ} {mark : ε → ε'} {p : Prog ε σ α} {s s' : σ'}

theorem returns_zoom {es' : List ε'} {a : α} :
    (zoom part mark p).Returns s es' a s' ↔
      ∃ es t, p.Returns (part.view s) es a t ∧ es' = es.map mark ∧ s' = part.put t s := by
  constructor
  · rintro ⟨n, h⟩
    obtain ⟨value, state, events⟩ := (Outcome.mk.injEq ..).mp h
    refine ⟨(p.run n (part.view s)).events, (p.run n (part.view s)).state, ⟨n, ?_⟩, events.symm,
      state.symm⟩
    rw [← value]
  · rintro ⟨es, t, ⟨n, h⟩, rfl, rfl⟩
    refine ⟨n, ?_⟩
    change Outcome.mk _ _ _ = _
    rw [h]

theorem Returns.zoom {es : List ε} {a : α} {t : σ} (h : p.Returns (part.view s) es a t)
    (mark : ε → ε') : (zoom part mark p).Returns s (es.map mark) a (part.put t s) :=
  returns_zoom.mpr ⟨es, t, h, rfl, rfl⟩

theorem emitted_zoom {es' : List ε'} :
    (zoom part mark p).Emitted s es' ↔ ∃ es, p.Emitted (part.view s) es ∧ es' = es.map mark := by
  constructor
  · rintro ⟨n, begins⟩
    obtain ⟨es, early, rfl⟩ := List.prefix_map_iff.mp begins
    exact ⟨es, ⟨n, early⟩, rfl⟩
  · rintro ⟨es, ⟨n, early⟩, rfl⟩
    exact ⟨n, early.map mark⟩

theorem ends_zoom : (zoom part mark p).Ends s ↔ p.Ends (part.view s) := by
  constructor
  · rintro ⟨_, a, _, run⟩
    obtain ⟨es, t, run', _⟩ := returns_zoom.mp run
    exact ⟨es, a, t, run'⟩
  · rintro ⟨es, a, t, run⟩
    exact ⟨_, a, _, returns_zoom.mpr ⟨es, t, run, rfl, rfl⟩⟩

/-! ## Getting on -/

/-- From `s` on, `p` emits `es` and is then `q` from `s'` on. -/
structure Leads (p : Prog ε σ α) (s : σ) (es : List ε) (q : Prog ε σ α) (s' : σ) : Prop where
  returns : ∀ {all a t}, p.Returns s all a t ↔ ∃ more, all = es ++ more ∧ q.Returns s' more a t
  emitted : ∀ {all}, p.Emitted s all ↔ all <+: es ∨ ∃ more, all = es ++ more ∧ q.Emitted s' more

theorem Returns.leads {β : Type} {p : Prog ε σ β} {f : β → Prog ε σ α} {s s' : σ} {es : List ε}
    {b : β} (h : p.Returns s es b s') : Leads (p >>= f) s es (f b) s' where
  returns := by
    intro all a t
    constructor
    · exact h.rest
    · rintro ⟨more, rfl, rest⟩
      exact h.bind rest
  emitted := by
    intro all
    rw [h.emitted_bind]
    exact or_congr_right (exists_congr fun _ => and_comm)

theorem Leads.trans {p q r : Prog ε σ α} {s s' s'' : σ} {es fs : List ε} (h : Leads p s es q s')
    (h' : Leads q s' fs r s'') : Leads p s (es ++ fs) r s'' where
  returns := by
    intro all a t
    rw [h.returns]
    constructor
    · rintro ⟨_, rfl, run⟩
      obtain ⟨more, rfl, run'⟩ := h'.returns.mp run
      exact ⟨more, (List.append_assoc ..).symm, run'⟩
    · rintro ⟨more, rfl, run⟩
      exact ⟨fs ++ more, List.append_assoc .., h'.returns.mpr ⟨more, rfl, run⟩⟩
  emitted := by
    intro all
    rw [h.emitted]
    constructor
    · rintro (early | ⟨_, rfl, emitted⟩)
      · exact .inl (early.trans (List.prefix_append es fs))
      · rcases h'.emitted.mp emitted with early | ⟨more, rfl, emitted'⟩
        · exact .inl ((List.prefix_append_right_inj es).mpr early)
        · exact .inr ⟨more, (List.append_assoc ..).symm, emitted'⟩
    · rintro (early | ⟨more, rfl, emitted⟩)
      · rcases cut_of_prefix early with first | ⟨later, rfl, begins⟩
        · exact .inl first
        · exact .inr ⟨later, rfl, h'.emitted.mpr (.inl begins)⟩
      · exact .inr ⟨fs ++ more, List.append_assoc .., h'.emitted.mpr (.inr ⟨more, rfl, emitted⟩)⟩

theorem Leads.ends {p q : Prog ε σ α} {s s' : σ} {es : List ε} (h : Leads p s es q s') :
    p.Ends s ↔ q.Ends s' := by
  constructor
  · rintro ⟨_, a, t, run⟩
    obtain ⟨more, _, rest⟩ := h.returns.mp run
    exact rest.ends
  · rintro ⟨more, a, t, rest⟩
    exact (h.returns.mpr ⟨more, rfl, rest⟩).ends

end Prog

end Imp
