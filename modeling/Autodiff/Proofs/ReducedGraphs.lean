import Autodiff.Proofs.RecordedInvariants

namespace Autodiff

variable {α β : Type} [Scalar α]

namespace Graph

variable {g g' : Graph α}

/-- Logarithms and powers have been worked out wherever that was possible. -/
def Reduced (g : Graph α) : Prop :=
  ∀ (i : Nat) (node : Node α), g.nodes[i]? = some node → g.Irreducible node

theorem Irreducible.extend (hg : g.Extends g') {node : Node α} (h : g.Irreducible node) :
    g'.Irreducible node := by
  cases node with
  | unary op arg =>
    cases op with
    | log =>
      obtain ⟨node, hn, hc⟩ := h
      exact ⟨node, hg.node hn, hc⟩
    | _ => trivial
  | power base n =>
    obtain ⟨node, hn, hc⟩ := h
    exact ⟨node, hg.node hn, hc⟩
  | _ => trivial

theorem reduced_empty : (empty : Graph α).Reduced := by simp [Reduced, empty]

theorem Reduced.pushed (h : g.Reduced) {node : Node α} (hn : g.Irreducible node) (next : Nat) :
    Reduced ⟨g.nodes.push node, next⟩ := by
  have hext := extends_push g node next
  intro i node' hi
  rw [Array.getElem?_push] at hi
  split at hi
  next =>
    obtain rfl := Option.some.inj hi
    exact hn.extend hext
  next => exact (h i node' hi).extend hext

instance : Recorded (Reduced : Graph α → Prop) where
  pushed _ _ hg _ hn := hg.pushed hn _
  newVar _ hg := hg.pushed (by trivial) _

end Graph

namespace Workspace

/-- Every graph has its logarithms and powers worked out wherever that was possible. -/
def Reduced (w : Workspace α) : Prop := ∀ name, (w.graphAt name).Reduced

/-- After every sequence of steps, whether they fail or not, no graph has a logarithm or a power of
a constant that could have been worked out. -/
theorem after_reduced (steps : List (Step α)) : (after steps).Reduced :=
  each_foldl (fun _ _ => Graph.reduced_empty) fun _ => Graph.reduced_empty

end Workspace

end Autodiff
