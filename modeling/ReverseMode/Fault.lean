import ReverseMode.Text.Quoted

/-!
What can go wrong, as causes.

A `Fault` says why a call was refused. Its kind is what a caller can handle; its
message, where it has one, is worded in `Fault.message` and nowhere else. Faults
without a message are those of plain values: a number that cannot be read, a
position outside an array, arrays that do not fit each other.
-/

namespace ReverseMode

/-- The kinds of faults a caller can tell apart. -/
inductive FaultKind where
  | shape | axis | elementType | graphState | unsupported
  | value | type | key | index | absentPart | zeroDivision | overflow | notImplemented | memory
  /-- A list that does not fit in memory; `memory` is the same of an array. -/
  | listMemory
  /-- Arithmetic that element types do not have, or whose result they cannot hold. -/
  | operation
  /-- A place to write to that does not exist. -/
  | absentPlace
  /-- A place to write to that cannot exist. -/
  | impossiblePlace
deriving DecidableEq, Repr, Inhabited

/-- Why a call was refused. Texts are those of the values concerned. -/
inductive Fault where
  -- Plain values
  | plain (kind : FaultKind)
  -- Element types
  | unknownType (text : String)
  | mixedTypes (names : List String)
  | notFloat (what name : String)
  | labelsNotInteger (name : String)
  | indicesNotInteger (what name : String)
  | truncation (operator scalar name : String)
  -- Axes and shapes
  | axisNotInteger (text : String)
  | axisOutOfRange (axis : Int) (rank : String)
  | badExtent (extent : Int) (extents : List Int)
  | incompatible (shapes : List (List Nat))
  | severalUnknown (requested : List Int)
  | cannotReshape (elements : String) (requested : List Int)
  | literalSize (held : Nat) (shape : List Nat) (needed : Int)
  | labelShape (labels logits : List Nat)
  | affineShape (others : List (List Nat)) (input : List Nat)
  | pickCount (k : Int) (extent : Nat)
  | productRank (operator : String) (a b : List Nat)
  | secondNotMatrix (b : List Nat)
  | innerExtents (operator : String) (a : List Nat) (transA : Bool) (b : List Nat) (transB : Bool)
  | permutationRank (axes : List Int) (rank : Nat)
  | notPermutation (axes : List Int) (rank : Nat)
  | cannotJoin (shape first : List Nat) (axis : String)
  | positionOutOfRange (index : String) (extent : Nat)
  | emptySlice (slice axis : String) (extent : Nat)
  | indexRank (shape : List Nat)
  | gatherShape (indices input : List Nat) (axis : String)
  | transposeRank (shape : List Nat)
  | repeatCount (repeats : String)
  | parameterShape (name : String) (held requested : List Nat)
  | seedShape (seed : List Nat) (label : String) (root : List Nat)
  -- Operators
  | unknownComparison (text : String)
  | unknownReduction (text : String)
  | undefined
  | undefinedView
  | noExpression
  | notExpression (typeName : String)
  | onlySingle (name : String) (count : Nat)
  | ruleInputs
  | tanhInputs
  | joinInputs
  | dropoutProbability (text : String)
  -- The state of a graph
  | foreign (label : String)
  | expired (label : String) (episode current : Nat)
  | inferenceOnly
  | notForwarded
  | extended
  | emptyGraph
  | seedCount (seeds roots : Nat)
  | notComputed (label : String)
  -- Settings and optimizers
  | unknownSetting (text : String)
  | noStep
deriving DecidableEq, Repr, Inhabited

namespace Fault

/-- A value of the right type that is not acceptable. -/
def value : Fault := plain .value

/-- A value of a type that is not acceptable. -/
def type : Fault := plain .type

/-- A value without the part that was asked for. -/
def absentPart : Fault := plain .absentPart

/-- A position outside an array. -/
def index : Fault := plain .index

/-- The kind of a fault. -/
def kind : Fault → FaultKind
  | plain k => k
  | unknownType _ | mixedTypes _ | notFloat _ _ | labelsNotInteger _ | indicesNotInteger _ _
  | truncation _ _ _ => .elementType
  | axisNotInteger _ | axisOutOfRange _ _ | permutationRank _ _ | notPermutation _ _ => .axis
  | badExtent _ _ | incompatible _ | severalUnknown _ | cannotReshape _ _ | literalSize _ _ _
  | labelShape _ _ | affineShape _ _ | pickCount _ _ | productRank _ _ _ | secondNotMatrix _
  | innerExtents _ _ _ _ _ | cannotJoin _ _ _ | positionOutOfRange _ _ | emptySlice _ _ _
  | indexRank _ | gatherShape _ _ _ | transposeRank _ | repeatCount _ | parameterShape _ _ _
  | seedShape _ _ _ => .shape
  | unknownComparison _ | unknownReduction _ | ruleInputs | tanhInputs | joinInputs
  | dropoutProbability _ | seedCount _ _ => .value
  | undefined | undefinedView | noStep => .notImplemented
  | noExpression | notExpression _ => .type
  | onlySingle _ _ => .unsupported
  | foreign _ | expired _ _ _ | inferenceOnly | notForwarded | extended | emptyGraph
  | notComputed _ => .graphState
  | unknownSetting _ => .key

/-- Integers between square brackets. -/
def integers (xs : List Int) : String :=
  Text.bracketed (xs.map toString)

/-- A truth value as written in messages. -/
def truth (b : Bool) : String := if b then "True" else "False"

/-- The wording of a fault; none for plain values. -/
def message : Fault → Option String
  | plain _ => none
  | unknownType text => s!"Unsupported element type: {text}"
  | mixedTypes names => s!"Incompatible element types {Text.commas names}; use cast() first"
  | notFloat what name => s!"{what} requires a floating point input, got {name}"
  | labelsNotInteger name => s!"cross_entropy labels must be integers, got {name}"
  | indicesNotInteger what name => s!"{what} indices must be integers, got {name}"
  | truncation operator scalar name =>
    s!"{operator} by {scalar} would truncate {name}; cast to a float type first"
  | axisNotInteger text => s!"Axis must be an integer, got {text}"
  | axisOutOfRange axis rank => s!"Axis {axis} is out of range for rank {rank}"
  | badExtent extent extents =>
    s!"Invalid extent {extent} in shape {Text.parenthesized (extents.map toString)}"
  | incompatible shapes =>
    s!"Shapes {Text.commas (shapes.map Text.extents)} are not broadcast-compatible"
  | severalUnknown requested => s!"Only one -1 extent allowed in {integers requested}"
  | cannotReshape elements requested =>
    s!"Cannot reshape {elements} elements into {integers requested}"
  | literalSize held shape needed =>
    s!"Initializer holds {held} values, node {Text.extents shape} needs {needed}"
  | labelShape labels logits =>
    s!"Labels {Text.extents labels} do not match logits {Text.extents logits}"
  | affineShape others input =>
    s!"layer_norm scale/shift {Text.bracketed (others.map Text.extents)} " ++
      s!"must broadcast to input {Text.extents input}"
  | pickCount k extent => s!"topk k={k} is out of range for extent {extent}"
  | productRank operator a b =>
    s!"{operator} needs operands of rank >= 2, got {Text.extents a} and {Text.extents b}"
  | secondNotMatrix b =>
    s!"dot expects a matrix as second operand, got {Text.extents b}; use bdot"
  | innerExtents operator a transA b transB =>
    s!"{operator}: inner dimensions differ ({Text.extents a} transA={truth transA} " ++
      s!"vs {Text.extents b} transB={truth transB})"
  | permutationRank axes rank => s!"Permutation {integers axes} does not match rank {rank}"
  | notPermutation axes rank => s!"{integers axes} is not a permutation of {rank} axes"
  | cannotJoin shape first axis =>
    s!"Cannot concatenate {Text.extents shape} with {Text.extents first} along axis {axis}"
  | positionOutOfRange index extent => s!"Index {index} out of range for extent {extent}"
  | emptySlice slice axis extent => s!"Slice {slice} of axis {axis} (extent {extent}) is empty"
  | indexRank shape => s!"index_select expects 1-D indices, got {Text.extents shape}"
  | gatherShape indices input axis =>
    s!"gather indices {Text.extents indices} do not match {Text.extents input} outside axis {axis}"
  | transposeRank shape => s!"transpose needs rank >= 2, got {Text.extents shape}"
  | repeatCount repeats => s!"repeat needs repeats >= 1, got {repeats}"
  | parameterShape name held requested =>
    s!"Parameter {name} exists with shape {Text.extents held}, " ++
      s!"requested {Text.extents requested}"
  | seedShape seed label root =>
    s!"Seed shape {Text.extents seed} does not match {label} {Text.extents root}"
  | unknownComparison text => s!"Unknown comparison {text}"
  | unknownReduction text => s!"Unknown reduction {text}"
  | undefined => some "Subclasses must implement this method."
  | undefinedView => some "View operators must implement this method."
  | noExpression => some "At least one argument must be an Expr"
  | notExpression typeName => s!"Expected an Expr, got {typeName}"
  | onlySingle name count =>
    s!"{name} of {count} expressions is not supported; pass a single expression"
  | ruleInputs => some "lambda_op needs at least one input"
  | tanhInputs => some "tanh needs at least one expression"
  | joinInputs => some "concatenate needs at least one expression"
  | dropoutProbability text => s!"Dropout probability must be in [0, 1), got {text}"
  | foreign label => s!"{label} belongs to a different graph"
  | expired label episode current =>
    s!"{label} belongs to episode {episode}, the graph is at episode {current}; " ++
      "rebuild the expression after reset()"
  | inferenceOnly => some "backward() is not available on an inference graph"
  | notForwarded => some "backward() called before forward() in this episode"
  | extended => some "The graph was extended after forward(); call forward() again"
  | emptyGraph => some "Nothing to differentiate: the graph is empty"
  | seedCount seeds roots => s!"Got {seeds} seeds for {roots} roots"
  | notComputed label => s!"{label} has not been computed; call forward()"
  | unknownSetting text => s!"Unknown graph config key: {text}"
  | noStep => some ""

end Fault

/-- A value that was handed in, or why it is none; looked at only when it is needed. -/
abbrev Deferred (β : Type) := Except Fault β

end ReverseMode
