import NeuralArch.Grammar.OfText

/-!
# The built-in grammar

The grammar of architecture descriptions, as text and as a grammar. Its
start symbol is `ann`, and it describes a network with an input block, at
least one hidden block and an output block.
-/

namespace NeuralArch.Grammar

/-- The lines of the built-in grammar. -/
def standardLines : List String :=
  ["# Architecture description language.",
   "#",
   "# A network is an input block, one or more hidden blocks and an output block.",
   "# INT and FLOAT are value placeholders filled in by the sampling table.",
   "",
   "<ann> ::= \"neuralnet\" \"\x7b\" <input_layer> <hidden_layers> <output_layer> \"\x7d\"",
   "",
   "# Input",
   "<input_layer> ::= \"input\" \"\x7b\" <input_params> \"\x7d\"",
   "<input_params> ::= <input_param> | <input_param> <input_params>",
   "<input_param> ::= \"features\" \"=\" INT \";\"",
   "                | \"sequence_length\" \"=\" INT \";\"",
   "",
   "# Hidden layers",
   "<hidden_layers> ::= <hidden_layer> | <hidden_layer> <hidden_layers>",
   "<hidden_layer> ::= <layer_type> \"\x7b\" <layer_params> \"\x7d\"",
   "<layer_type> ::= \"dense\" | \"lstm\" | \"gru\" | \"conv1d\" | \"tcn\" | \"attention\" | \"esn\"",
   "               | \"max_pooling\" | \"avg_pooling\" | \"global_pooling\"",
   "               | \"batch_norm\" | \"layer_norm\" | \"instance_norm\"",
   "",
   "<layer_params> ::= <layer_param> | <layer_param> <layer_params>",
   "<layer_param> ::= \"units\" \"=\" INT \";\"",
   "                | \"filters\" \"=\" INT \";\"",
   "                | \"heads\" \"=\" INT \";\"",
   "                | \"kernel_size\" \"=\" INT \";\"",
   "                | \"strides\" \"=\" INT \";\"",
   "                | \"pool_size\" \"=\" INT \";\"",
   "                | \"dilation_rate\" \"=\" INT \";\"",
   "                | \"axis\" \"=\" INT \";\"",
   "                | \"dropout\" \"=\" FLOAT \";\"",
   "                | \"recurrent_dropout\" \"=\" FLOAT \";\"",
   "                | \"l1\" \"=\" FLOAT \";\"",
   "                | \"l2\" \"=\" FLOAT \";\"",
   "                | \"leak_rate\" \"=\" FLOAT \";\"",
   "                | \"spectral_radius\" \"=\" FLOAT \";\"",
   "                | \"input_scaling\" \"=\" FLOAT \";\"",
   "                | \"momentum\" \"=\" FLOAT \";\"",
   "                | \"epsilon\" \"=\" FLOAT \";\"",
   "                | \"activation\" \"=\" <activation_fn> \";\"",
   "                | \"kernel_init\" \"=\" <kernel_initializer> \";\"",
   "                | \"padding\" \"=\" <padding> \";\"",
   "                | \"pool_type\" \"=\" <pool_type> \";\"",
   "                | \"dilations\" \"=\" <dilation_list> \";\"",
   "",
   "<activation_fn> ::= \"linear\" | \"relu\" | \"sigmoid\" | \"tanh\" | \"softmax\"",
   "                  | \"swish\" | \"gelu\" | \"leaky_relu\" | \"elu\"",
   "<kernel_initializer> ::= \"glorot_uniform\" | \"glorot_normal\" | \"he_uniform\"",
   "                       | \"he_normal\" | \"random_normal\"",
   "<padding> ::= \"causal\" | \"same\" | \"valid\"",
   "<pool_type> ::= \"avg\" | \"max\" | \"min\"",
   "",
   "<dilation_list> ::= \"[\" <dilation_items> \"]\"",
   "<dilation_items> ::= INT | INT \",\" <dilation_items>",
   "",
   "# Output",
   "<output_layer> ::= \"output\" \"\x7b\" <output_params> \"\x7d\"",
   "<output_params> ::= <output_param> | <output_param> <output_params>",
   "<output_param> ::= \"units\" \"=\" INT \";\"",
   "                 | \"activation\" \"=\" <activation_fn> \";\"",
   "                 | \"dropout\" \"=\" FLOAT \";\""]

/-- The text of the built-in grammar. -/
def standardText : String :=
  String.ofList (standardLines.flatMap fun line => line.toList ++ ['\n'])

/-- The built-in grammar. -/
def standard : Grammar := ofText standardText

end NeuralArch.Grammar
