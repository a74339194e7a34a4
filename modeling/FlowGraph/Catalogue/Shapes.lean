import FlowGraph.Registry.Basic

/-!
Shapes shared by the definitions of the catalogue: data sockets, settings, and function nodes that
apply one operator.
-/
namespace FlowGraph.Catalogue

def dataSpec (name valueType : String) (default : Value := .none) : SocketSpec :=
  { name := name, valueType := valueType, default := default }

def real (n : Nat) : Value := .float (Double.ofRatio false n 1)

def oneHalf : Value := .float ValueType.half

def describe (category color displayName description : String) : Metadata :=
  { category := category, displayName := displayName, description := description, color := color }

def unary (m : Metadata) (typeName : String) (input : SocketSpec) (result : String) (op : Unary) : Definition :=
  { typeName := typeName, metadata := m
    behaviour := .function (some (.unary input.name "result" op))
    inputs := .fixed [input], outputs := .fixed [dataSpec "result" result] }

def binary (m : Metadata) (typeName : String) (a b : SocketSpec) (result : String) (op : Binary) : Definition :=
  { typeName := typeName, metadata := m
    behaviour := .function (some (.binary a.name b.name "result" op))
    inputs := .fixed [a, b], outputs := .fixed [dataSpec "result" result] }

def ternary (m : Metadata) (typeName : String) (a b c : SocketSpec) (result : String) (op : Ternary) : Definition :=
  { typeName := typeName, metadata := m
    behaviour := .function (some (.ternary a.name b.name c.name "result" op))
    inputs := .fixed [a, b, c], outputs := .fixed [dataSpec "result" result] }

def constant (m : Metadata) (typeName valueType : String) : Definition :=
  unary m typeName (dataSpec "value" valueType) valueType .identity

end FlowGraph.Catalogue
