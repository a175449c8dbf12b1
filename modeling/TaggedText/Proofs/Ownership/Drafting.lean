import TaggedText.Document.Draft
import TaggedText.Proofs.Ownership.Operations

/-!
# Ownership in a draft

A document under construction changes its tree by making nodes, appending them and editing what
they hold, so its tree is valid after any list of tokens.
-/
namespace TaggedText

namespace Draft

variable {draft draft' : Draft} {content : Content}

theorem valid_of_start (h : Draft.start = .ok draft) : draft.tree.Valid := by
  obtain ⟨_, hmade, h⟩ := bind_eq_ok_iff.mp h
  cases h
  exact Tree.valid_empty.construct hmade

theorem valid_of_add {added : NodeId × Draft} (hv : draft.tree.Valid)
    (h : draft.add content = .ok added) : added.2.tree.Valid := by
  obtain ⟨_, hmade, h⟩ := bind_eq_ok_iff.mp h
  obtain ⟨_, hpushed, h⟩ := bind_eq_ok_iff.mp h
  cases h
  exact (hv.construct hmade).push hpushed

theorem valid_of_addLeaf (hv : draft.tree.Valid) (h : draft.addLeaf content = .ok draft') :
    draft'.tree.Valid := by
  obtain ⟨_, hadded, h⟩ := bind_eq_ok_iff.mp h
  cases h
  exact valid_of_add hv hadded

theorem valid_of_openTag (hv : draft.tree.Valid) (h : draft.openTag content = .ok draft') :
    draft'.tree.Valid := by
  obtain ⟨_, hadded, h⟩ := bind_eq_ok_iff.mp h
  cases h
  exact valid_of_add hv hadded

theorem valid_of_closeTag {directive : Directive} {name : String} (hv : draft.tree.Valid)
    (h : draft.closeTag directive name = .ok draft') : draft'.tree.Valid := by
  unfold closeTag at h
  split at h
  · cases h
    exact hv.edit _ _
  · exact valid_of_addLeaf hv h

theorem valid_of_take {lexeme : Lexeme} (hv : draft.tree.Valid)
    (h : draft.take lexeme = .ok draft') : draft'.tree.Valid := by
  unfold take at h
  split at h
  · split at h
    · cases h
      exact hv
    · exact valid_of_addLeaf hv h
  · exact valid_of_openTag hv h
  · exact valid_of_addLeaf hv h
  · exact valid_of_closeTag hv h
  · cases h
    exact hv.edit _ _
  · exact valid_of_addLeaf hv h

theorem valid_of_finish {document : Document} (hv : draft.tree.Valid)
    (h : draft.finish = .ok document) : document.tree.Valid := by
  have hmarked : ∀ opened : List NodeId,
      (opened.foldr (fun id tree => tree.edit id Content.leftOpen) draft.tree).Valid := by
    intro opened
    induction opened with
    | nil => exact hv
    | cons id opened ih => exact ih.edit id _
  simp only [finish, Document.of] at h
  split at h
  · cases h
    exact hmarked _
  · cases h

end Draft

theorem Document.valid_of_ofTokens {tokens : List Token} {document : Document}
    (h : Document.ofTokens tokens = .ok document) : document.tree.Valid := by
  obtain ⟨start, hstart, h⟩ := bind_eq_ok_iff.mp h
  obtain ⟨draft, hdraft, h⟩ := bind_eq_ok_iff.mp h
  have hfold : draft.tree.Valid :=
    foldlM_invariant (fun draft => draft.tree.Valid)
      (fun _ _ _ hv htake => Draft.valid_of_take hv htake) (Draft.valid_of_start hstart) hdraft
  exact Draft.valid_of_finish hfold h

end TaggedText
