import Misfit.Types.Basic

/-!
# Trails of comparisons

Each step of a comparison is recorded as a layer: how the target and the source of that step are shown.
A trail is the sequence of layers from the flagged statement down to the place of the conflict. Pushing
a layer leaves the trail it was pushed onto as it was, so comparisons of siblings share what is above
them.
-/
namespace Misfit

/-- How one side of a comparison is shown. -/
structure Description where
  /-- Source text of the node, or the name of the property. -/
  shown : String := ""
  /-- The text of the type. -/
  typeText : String := ""
  /-- `name: type`, or one of the two where the other adds nothing. -/
  label : String := ""
  /-- Where the node is; empty for a side that is made up. -/
  link : String := ""
  type : Option TypeId := none
  deriving DecidableEq, Repr, Inhabited

namespace Description

def isEmpty (d : Description) : Bool := d.shown.isEmpty && d.typeText.isEmpty

end Description

/-- The source side of a layer. -/
inductive LayerSource
  | node (description : Description)
  /-- Stands in for a source without a node of its own; it is compared with one key of the target. -/
  | placeholder (description : Description) (key : Option String)
  deriving DecidableEq, Repr

namespace LayerSource

def description : LayerSource → Description
  | node d => d
  | placeholder d _ => d

end LayerSource

/-- One step of a comparison. -/
structure Layer where
  target : Description
  source : LayerSource
  deriving DecidableEq, Repr

/-- The layers of a comparison; the deepest comes first in `inward`. -/
structure Trail where
  inward : List Layer := []
  deriving DecidableEq, Repr

namespace Trail

def empty : Trail := {}

/-- The trail one layer deeper. -/
def push (t : Trail) (layer : Layer) : Trail := ⟨layer :: t.inward⟩

/-- The layers from the outermost to the deepest. -/
def layers (t : Trail) : List Layer := t.inward.reverse

/-- The trail with the given layers, outermost first. -/
def ofLayers (layers : List Layer) : Trail := ⟨layers.reverse⟩

/-- The deepest layer. -/
def last? (t : Trail) : Option Layer := t.inward.head?

def length (t : Trail) : Nat := t.inward.length

def isEmpty (t : Trail) : Bool := t.inward.isEmpty

@[simp] theorem layers_empty : empty.layers = [] := rfl

@[simp] theorem layers_push (t : Trail) (layer : Layer) :
    (t.push layer).layers = t.layers ++ [layer] := by simp [layers, push]

@[simp] theorem layers_ofLayers (ls : List Layer) : (ofLayers ls).layers = ls := by
  simp [layers, ofLayers]

@[simp] theorem length_push (t : Trail) (layer : Layer) : (t.push layer).length = t.length + 1 := rfl

theorem length_layers (t : Trail) : t.layers.length = t.length := by simp [layers, length]

end Trail

end Misfit
