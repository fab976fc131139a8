import Wireboard.Params

/-!
# Layers

The kinds of network layer that a node can be, their names, and the parameters that a new node
starts with.
-/

namespace Wireboard

/-- A kind of network layer. -/
inductive Layer where
  | input | conv2d | maxPool | flatten | linear | output | concat
  deriving DecidableEq

namespace Layer

/-- All kinds, in the order of the palette. -/
def all : List Layer := [input, conv2d, maxPool, flatten, linear, output, concat]

/-- The name in files and in dragged data. -/
def tag : Layer → String
  | input => "InputLayer"
  | output => "OutputLayer"
  | linear => "LinearLayer"
  | conv2d => "Conv2DLayer"
  | maxPool => "MaxPoolLayer"
  | flatten => "FlattenLayer"
  | concat => "ConcatLayer"

/-- The short name. -/
def short : Layer → String
  | input => "input"
  | output => "output"
  | linear => "linear"
  | conv2d => "conv2d"
  | maxPool => "max-pool"
  | flatten => "flatten"
  | concat => "concat"

/-- The name that is shown. -/
def title : Layer → String
  | input => "Input Layer"
  | output => "Output Layer"
  | linear => "Linear Layer"
  | conv2d => "Conv2D Layer"
  | maxPool => "MaxPool Layer"
  | flatten => "Flatten Layer"
  | concat => "Concat Layer"

/-- The kind with exactly this tag. -/
def ofTag? (s : String) : Option Layer := all.find? (·.tag == s)

/-- The kind with this tag or short name, blanks around it aside. -/
def ofName? (s : String) : Option Layer :=
  let s := trimmed s
  all.find? fun l => l.tag == s || l.short == s

/-- The parameters of a new node. -/
def defaults : Layer → Params
  | input => .ofList [("inputShape", .sequence [16.0])]
  | conv2d => .ofList [("filterSize", .number 3.0), ("numFilters", .number 32.0),
      ("activationFunction", .text "relu")]
  | output => .ofList [("outputShape", .sequence [10.0]),
      ("activationFunction", .text "softmax")]
  | concat => .ofList [("layers", .sequence [])]
  | linear => .ofList [("outputSize", .number 64.0), ("bias", .flag true),
      ("activation", .text "relu")]
  | flatten => .ofList [("startDim", .number 1.0), ("endDim", .number (-1.0))]
  | maxPool => .ofList [("poolSize", .number 2.0), ("stride", .number 2.0),
      ("padding", .text "valid")]

/-- The kind in JSON. -/
def toJson (l : Layer) : Json := Json.text l.tag

/-- The kind that a JSON tree names: its tag, or an object whose one member is named by the tag and
holds `null`. -/
def ofJson? : Json → Option Layer
  | .str (some s) => ofTag? s
  | .obj [(some s, .null)] => ofTag? s
  | _ => none

end Layer

end Wireboard
