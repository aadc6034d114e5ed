/-!
# The vocabulary of architecture descriptions

The closed classes of words a description is written with: the types of
hidden layer, the names of parameters, and the words that stand for values.
Each class is an enumeration with its list `all` and its spelling `word`;
parameter names carry also the shape of the value they are given.

Main statements: every enumeration's `all` is complete (`LayerType.mem_all`
and its companions), so a table computed from it forgets no word.
-/

namespace NeuralArch

/-- The types a hidden layer can have. -/
inductive LayerType
  | dense | lstm | gru | conv1d | tcn | attention | esn
  | maxPooling | avgPooling | globalPooling
  | batchNorm | layerNorm | instanceNorm
deriving DecidableEq, Repr

namespace LayerType

def word : LayerType → String
  | dense => "dense"
  | lstm => "lstm"
  | gru => "gru"
  | conv1d => "conv1d"
  | tcn => "tcn"
  | attention => "attention"
  | esn => "esn"
  | maxPooling => "max_pooling"
  | avgPooling => "avg_pooling"
  | globalPooling => "global_pooling"
  | batchNorm => "batch_norm"
  | layerNorm => "layer_norm"
  | instanceNorm => "instance_norm"

def all : List LayerType :=
  [dense, lstm, gru, conv1d, tcn, attention, esn, maxPooling, avgPooling, globalPooling,
   batchNorm, layerNorm, instanceNorm]

theorem mem_all (t : LayerType) : t ∈ all := by cases t <;> decide

end LayerType

/-- What is written behind the equals sign of a parameter. -/
inductive ValueShape
  | number | activation | initializer | padding | poolType | dilationList
deriving DecidableEq, Repr

/-- The parameters of input, hidden and output blocks. -/
inductive ParamName
  | features | sequenceLength | units | filters | heads | kernelSize | strides | poolSize
  | dilationRate | axis | dropout | recurrentDropout | l1 | l2 | leakRate | spectralRadius
  | inputScaling | momentum | epsilon | activation | kernelInit | padding | poolType | dilations
deriving DecidableEq, Repr

namespace ParamName

def word : ParamName → String
  | features => "features"
  | sequenceLength => "sequence_length"
  | units => "units"
  | filters => "filters"
  | heads => "heads"
  | kernelSize => "kernel_size"
  | strides => "strides"
  | poolSize => "pool_size"
  | dilationRate => "dilation_rate"
  | axis => "axis"
  | dropout => "dropout"
  | recurrentDropout => "recurrent_dropout"
  | l1 => "l1"
  | l2 => "l2"
  | leakRate => "leak_rate"
  | spectralRadius => "spectral_radius"
  | inputScaling => "input_scaling"
  | momentum => "momentum"
  | epsilon => "epsilon"
  | activation => "activation"
  | kernelInit => "kernel_init"
  | padding => "padding"
  | poolType => "pool_type"
  | dilations => "dilations"

/-- The shape of the value a parameter is given. All but five parameters are numbers. -/
def shape : ParamName → ValueShape
  | activation => .activation
  | kernelInit => .initializer
  | padding => .padding
  | poolType => .poolType
  | dilations => .dilationList
  | _ => .number

def all : List ParamName :=
  [features, sequenceLength, units, filters, heads, kernelSize, strides, poolSize, dilationRate,
   axis, dropout, recurrentDropout, l1, l2, leakRate, spectralRadius, inputScaling, momentum,
   epsilon, activation, kernelInit, padding, poolType, dilations]

theorem mem_all (p : ParamName) : p ∈ all := by cases p <;> decide

end ParamName

/-- The activation functions. -/
inductive Activation
  | linear | relu | sigmoid | tanh | softmax | swish | gelu | leakyRelu | elu
deriving DecidableEq, Repr

namespace Activation

def word : Activation → String
  | linear => "linear"
  | relu => "relu"
  | sigmoid => "sigmoid"
  | tanh => "tanh"
  | softmax => "softmax"
  | swish => "swish"
  | gelu => "gelu"
  | leakyRelu => "leaky_relu"
  | elu => "elu"

def all : List Activation :=
  [linear, relu, sigmoid, tanh, softmax, swish, gelu, leakyRelu, elu]

theorem mem_all (a : Activation) : a ∈ all := by cases a <;> decide

end Activation

/-- The ways to initialize a kernel. -/
inductive Initializer
  | glorotUniform | glorotNormal | heUniform | heNormal | randomNormal
deriving DecidableEq, Repr

namespace Initializer

def word : Initializer → String
  | glorotUniform => "glorot_uniform"
  | glorotNormal => "glorot_normal"
  | heUniform => "he_uniform"
  | heNormal => "he_normal"
  | randomNormal => "random_normal"

def all : List Initializer :=
  [glorotUniform, glorotNormal, heUniform, heNormal, randomNormal]

theorem mem_all (i : Initializer) : i ∈ all := by cases i <;> decide

end Initializer

/-- The padding modes of a convolution or pooling. -/
inductive PaddingMode
  | causal | same | valid
deriving DecidableEq, Repr

namespace PaddingMode

def word : PaddingMode → String
  | causal => "causal"
  | same => "same"
  | valid => "valid"

def all : List PaddingMode := [causal, same, valid]

theorem mem_all (m : PaddingMode) : m ∈ all := by cases m <;> decide

end PaddingMode

/-- What a global pooling keeps of its window. -/
inductive PoolType
  | avg | max | min
deriving DecidableEq, Repr

namespace PoolType

def word : PoolType → String
  | avg => "avg"
  | max => "max"
  | min => "min"

def all : List PoolType := [avg, max, min]

theorem mem_all (p : PoolType) : p ∈ all := by cases p <;> decide

end PoolType

/-- The blocks of a description, by the parameters they admit. -/
inductive Block
  | input | hidden | output
deriving DecidableEq, Repr

/-- Which parameters a block may hold. Hidden blocks may hold all of them: which of these
make sense for the layer's type is not a matter of syntax. -/
def Block.admits : Block → ParamName → Bool
  | .input, p => p == .features || p == .sequenceLength
  | .hidden, _ => true
  | .output, p => p == .units || p == .activation || p == .dropout

end NeuralArch
