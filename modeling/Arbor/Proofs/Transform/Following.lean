import Arbor.Proofs.Transform.Drafting

/-!
Work that follows a recursion. The work succeeds exactly where the recursion comes to an end, and
leaves the same ledger; how it stands to what the recursion gives is a relation that goes from one
step to the next. Work in steps follows a recursion in steps.
-/
namespace Arbor

namespace Transformer
open Work

/-- Work that follows a recursion: where that comes to an end, the work does, with the same ledger
and answers that `Q` relates; and where that stops, the work fails. -/
structure Follows {α β : Type} (x : Work TransformError α) (y : Drafting β) (w : Workshop)
    (Q : α → β → Workshop → Prop) : Prop where
  ok {b : β} {l : Ledger} : y.answer w.world.ledger = (.ok b, l) →
    ∃ a w', x.outcome w = (.ok a, w') ∧ w'.world.ledger = l ∧ Q a b w'
  error {o : Obstacle} {l : Ledger} : y.answer w.world.ledger = (.error o, l) →
    ∃ e w', x.outcome w = (.error e, w')

/-- Changes of nodes that are there do not count. -/
theorem ledger_withWorld {w : Workshop} {g : Forest} (h : g.size = w.world.forest.size) :
    (w.withWorld w.world.registry g).world.ledger = w.world.ledger :=
  congrArg (Ledger.mk w.world.registry) h

section Following
variable {α β γ δ : Type} {w w' : Workshop} {x : Work TransformError α} {y : Drafting β}
  {Q R : α → β → Workshop → Prop} {g : α → Work TransformError γ} {k : β → Drafting δ}
  {P : γ → δ → Workshop → Prop}

theorem follows_done {P : α → β → Workshop → Prop} {a : α} {b : β} (hx : x.outcome w = (.ok a, w'))
    (hl : w'.world.ledger = w.world.ledger) (h : P a b w') :
    Follows x (pure b : Drafting β) w P where
  ok {c l} hc := by
    simp only [Drafting.answer_pure, Prod.mk.injEq, Except.ok.injEq] at hc
    obtain ⟨rfl, rfl⟩ := hc
    exact ⟨a, w', hx, hl, h⟩
  error hc := by simp at hc

theorem follows_pure {P : α → β → Workshop → Prop} {a : α} {b : β} (h : P a b w) :
    Follows (pure a : Work TransformError α) (pure b : Drafting β) w P :=
  follows_done (outcome_pure a) rfl h

theorem follows_withLedger {P : α → β → Workshop → Prop} {step : Ledger → β × Ledger} {a : α}
    (hx : x.outcome w = (.ok a, w')) (hl : w'.world.ledger = (step w.world.ledger).2)
    (h : P a (step w.world.ledger).1 w') : Follows x (.withLedger step) w P where
  ok {c l} hc := by
    simp only [Drafting.answer_withLedger, Prod.mk.injEq, Except.ok.injEq] at hc
    obtain ⟨rfl, rfl⟩ := hc
    exact ⟨a, w', hx, hl, h⟩
  error hc := by simp at hc

theorem follows_throw {P : α → β → Workshop → Prop} {o : Obstacle} {e : TransformError}
    (hx : x.outcome w = (.error e, w')) : Follows x (throw o : Drafting β) w P where
  ok hb := by simp at hb
  error _ := ⟨e, w', hx⟩

theorem follows_bind (hx : Follows x y w Q)
    (hg : ∀ a b w', Q a b w' → Follows (g a) (k b) w' P) : Follows (x >>= g) (y >>= k) w P := by
  cases hy : y.answer w.world.ledger with
  | mk answer l =>
    cases answer with
    | ok b =>
      obtain ⟨a, w', hxa, rfl, hq⟩ := hx.ok hy
      have hnext := hg a b w' hq
      have hrun : (x >>= g).outcome w = (g a).outcome w' := outcome_bind_ok hxa g
      constructor
      · intro c l hc
        rw [Drafting.answer_bind_ok hy] at hc
        rw [hrun]
        exact hnext.ok hc
      · intro o l hc
        rw [Drafting.answer_bind_ok hy] at hc
        rw [hrun]
        exact hnext.error hc
    | error o =>
      obtain ⟨e, w', hxe⟩ := hx.error hy
      constructor
      · intro c l hc
        rw [Drafting.answer_bind_error hy] at hc
        cases hc
      · intro o l hc
        exact ⟨e, w', outcome_bind_error hxe g⟩

/-- Supplied work whose failure is an answer, against a step of the ledger. -/
theorem follows_attempt {x : Work Failure α} {made : Except Failure α} {b : β}
    {step : Ledger → β × Ledger} {g : Except Failure α → Work TransformError γ}
    (hx : x.outcome w = (made, w')) (hstep : step w.world.ledger = (b, w'.world.ledger))
    (h : Follows (g made) (k b) w' P) :
    Follows (attempt x >>= g) (Drafting.withLedger step >>= k) w P := by
  have hboth : Follows (attempt x : Work TransformError (Except Failure α))
      (.withLedger step) w fun a c w₁ => a = made ∧ c = b ∧ w₁ = w' := by
    refine follows_withLedger (outcome_attempt x) ?_ ⟨?_, ?_, ?_⟩
    · rw [hx, hstep]
    · rw [hx]
    · rw [hstep]
    · rw [hx]
  refine follows_bind hboth ?_
  rintro _ _ _ ⟨rfl, rfl, rfl⟩
  exact h

theorem Follows.map_left {z : α → γ} {P : γ → β → Workshop → Prop}
    (h : Follows x y w fun a b w' => P (z a) b w') : Follows (x >>= fun a => pure (z a)) y w P := by
  have hboth := follows_bind h fun a b w' hq => follows_pure (P := P) (b := b) hq
  rwa [bind_pure] at hboth

theorem Follows.map_right {z : β → δ} {P : α → δ → Workshop → Prop}
    (h : Follows x y w fun a b w' => P a (z b) w') : Follows x (y >>= fun b => pure (z b)) w P := by
  have hboth := follows_bind h fun a b w' hq => follows_pure (P := P) (a := a) hq
  rwa [bind_pure] at hboth

theorem Follows.imp (h : Follows x y w Q) (hQ : ∀ a b w', Q a b w' → R a b w') :
    Follows x y w R where
  ok hb := by
    obtain ⟨a, w', hx, hr, hq⟩ := h.ok hb
    exact ⟨a, w', hx, hr, hQ a _ w' hq⟩
  error := h.error

/-- A step of the work alone, which registers nothing and takes no cell. -/
theorem follows_after {z : Work TransformError γ} {c : γ} {g : γ → Work TransformError α}
    (hz : z.outcome w = (.ok c, w')) (hl : w'.world.ledger = w.world.ledger)
    (h : Follows (g c) y w' Q) : Follows (z >>= g) y w Q where
  ok hb := by
    rw [outcome_bind_ok hz]
    exact h.ok (hl ▸ hb)
  error hb := by
    rw [outcome_bind_ok hz]
    exact h.error (hl ▸ hb)

end Following

end Transformer

end Arbor
