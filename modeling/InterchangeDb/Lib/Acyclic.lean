import Mathlib

/-! Relations without a cycle, and the edges that may be added to one. -/
namespace InterchangeDb

open Relation

variable {α : Type*} {r r' : α → α → Prop} {t : α}

/-- No node leads back to itself. -/
def Acyclic (r : α → α → Prop) : Prop := ∀ a, ¬TransGen r a a

theorem Acyclic.mono (h : Acyclic r) (hr : ∀ a b, r' a b → r a b) : Acyclic r' :=
  fun a ha => h a (.mono hr a a ha)

/-- New edges out of one node are harmless when that node does not lead back to itself. -/
theorem Acyclic.add_out (h : Acyclic r) (hr : ∀ a b, r' a b → r a b ∨ a = t) (ht : ¬TransGen r' t t) : Acyclic r' := by
  have hsplit : ∀ a b, TransGen r' a b → TransGen r a b ∨ ReflTransGen r' a t ∧ TransGen r' t b := by
    intro a b hab
    induction hab with
    | single hab =>
      rcases hr _ _ hab with hold | rfl
      · exact .inl (.single hold)
      · exact .inr ⟨.refl,.single hab⟩
    | tail hpath hab ih =>
      rcases hr _ _ hab with hold | rfl
      · exact ih.imp (·.tail hold) (fun hp => ⟨hp.1,hp.2.tail hab⟩)
      · exact .inr ⟨hpath.to_reflTransGen,.single hab⟩
  intro a ha
  rcases hsplit a a ha with hold | ⟨hat,hta⟩
  · exact h a hold
  · exact ht (hta.trans_left hat)

theorem Acyclic.add_in (h : Acyclic r) (hr : ∀ a b, r' a b → r a b ∨ b = t) (ht : ∀ b, ¬r' t b) : Acyclic r' := by
  have hsplit : ∀ a b, TransGen r' a b → TransGen r a b ∨ b = t := by
    intro a b hab
    induction hab with
    | single hab => exact (hr _ _ hab).imp_left .single
    | tail _ hab ih =>
      rcases ih with hold | rfl
      · exact (hr _ _ hab).imp_left hold.tail
      · exact (ht _ hab).elim
  intro a ha
  rcases hsplit a a ha with hold | rfl
  · exact h a hold
  · obtain ⟨b,hb,-⟩ := TransGen.head'_iff.mp ha
    exact ht b hb

/-- Edges that only lead on to where their start leads anyway can be left out of a path. -/
theorem transGen_of_skip {g : α → α → Prop} (hlast : ∀ a, r a t → g a t)
    (hskip : ∀ a b, r a b → g a b ∨ ∀ c, g b c → g a c) {a : α} (h : TransGen r a t) : TransGen g a t := by
  induction h using TransGen.head_induction_on with
  | single hat => exact .single (hlast _ hat)
  | head hab _ ih =>
    rcases hskip _ _ hab with hg | hnext
    · exact .head hg ih
    · obtain ⟨c,hc,hrest⟩ := TransGen.head'_iff.mp ih
      exact .head' (hnext c hc) hrest

end InterchangeDb
