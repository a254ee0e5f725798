import MonkeyFormat.Proofs.Effects

set_option autoImplicit false

/-! # How a run settles

What is said of a run covers both of its outcomes: how it ends if it succeeds, and which fault it
reports, in which state, if it fails. The rules follow the steps of a program, so that no step is
left whose fault is not accounted for. -/

namespace MonkeyFormat

variable {σ α β : Type}

/-- From the state the program ends as `post` says, or fails as `fault` says. -/
def Settles (fault : Fault → σ → Prop) (s : σ) (m : ExceptT Fault (StateM σ) α)
    (post : α → σ → Prop) : Prop :=
  match m.run.run s with
  | (.ok a, t) => post a t
  | (.error e, t) => fault e t

namespace Settles

variable {fault : Fault → σ → Prop} {s : σ} {m m' : ExceptT Fault (StateM σ) α}
  {f : α → ExceptT Fault (StateM σ) β} {post post' : α → σ → Prop} {goal : β → σ → Prop}

theorem of_run {a : α} {t : σ} (hrun : m.run.run s = (.ok a, t)) (h : post a t) :
    Settles fault s m post := by
  rw [Settles, hrun]
  exact h

theorem of_throw {e : Fault} {t : σ} (hrun : m.run.run s = (.error e, t)) (h : fault e t) :
    Settles fault s m post := by
  rw [Settles, hrun]
  exact h

theorem ok (hm : Settles fault s m post) {a : α} {t : σ} (hrun : m.run.run s = (.ok a, t)) :
    post a t := by
  rw [Settles, hrun] at hm
  exact hm

theorem error (hm : Settles fault s m post) {e : Fault} {t : σ}
    (hrun : m.run.run s = (.error e, t)) : fault e t := by
  rw [Settles, hrun] at hm
  exact hm

/-- What holds of every run that succeeds may be added. -/
theorem and_ok (hm : Settles fault s m post)
    (h : ∀ a t, m.run.run s = (.ok a, t) → post a t → post' a t) : Settles fault s m post' := by
  rcases hrun : m.run.run s with ⟨e | a, t⟩
  · exact .of_throw hrun (hm.error hrun)
  · exact .of_run hrun (h a t hrun (hm.ok hrun))

theorem weaken (hm : Settles fault s m post) (h : ∀ a t, post a t → post' a t) :
    Settles fault s m post' := hm.and_ok fun a t _ => h a t

theorem weaken_fault {fault' : Fault → σ → Prop} (hm : Settles fault s m post)
    (h : ∀ e t, fault e t → fault' e t) : Settles fault' s m post := by
  rcases hrun : m.run.run s with ⟨e | a, t⟩
  · exact .of_throw hrun (h e t (hm.error hrun))
  · exact .of_run hrun (hm.ok hrun)

theorem pure {a : α} (h : post a s) : Settles fault s (Pure.pure a) post := h

theorem run_bind {a : α} {t : σ} (hrun : m.run.run s = (.ok a, t))
    (hf : Settles fault t (f a) goal) : Settles fault s (m >>= f) goal := by
  rw [Settles, run_bind_ok f hrun]
  exact hf

theorem bind (hm : Settles fault s m post) (hf : ∀ a t, post a t → Settles fault t (f a) goal) :
    Settles fault s (m >>= f) goal := by
  rcases hrun : m.run.run s with ⟨e | a, t⟩
  · refine .of_throw (t := t) ?_ (hm.error hrun)
    rw [MonkeyFormat.run_bind, hrun]
  · exact .run_bind hrun (hf a t (hm.ok hrun))

theorem map {g : α → β} (hm : Settles fault s m post) (h : ∀ a t, post a t → goal (g a) t) :
    Settles fault s (g <$> m) goal := by
  rw [← bind_pure_comp]
  exact hm.bind fun a t ht => .pure (h a t ht)

theorem ite {c : Prop} [Decidable c] (hm : c → Settles fault s m post)
    (hm' : ¬c → Settles fault s m' post) : Settles fault s (if c then m else m') post := by
  split
  · exact hm ‹_›
  · exact hm' ‹_›

/-- Either of two programs, and what is done with the result. -/
theorem branch {c : Prop} [Decidable c] (hm : c → Settles fault s m post)
    (hm' : ¬c → Settles fault s m' post) (hf : ∀ a t, post a t → Settles fault t (f a) goal) :
    Settles fault s (if c then m >>= f else m' >>= f) goal :=
  .ite (fun hc => (hm hc).bind hf) fun hc => (hm' hc).bind hf

end Settles

end MonkeyFormat
