import FlowGraph.Catalogue.Shapes

/-!
The vector catalogue: the two vector types and the nodes that build, split and combine vectors.
-/
namespace FlowGraph.Catalogue

def vectorMeta : String → String → Metadata := describe "Vector" "#FFD700"

/-- The name of a vector type inside the names of its nodes. -/
def vectorTitle : Dimension → String
  | .two => "Vec2"
  | .three => "Vec3"

def vectorNodes (d : Dimension) : List Definition :=
  let t := (ValueType.vector d).name
  let title := vectorTitle d
  let a := dataSpec "a" t
  let b := dataSpec "b" t
  let v := dataSpec "vector" t
  let about (verb : String) := verb ++ " (" ++ title ++ ")"
  [ { typeName := "Make" ++ title, behaviour := .function (some (.makeVector d))
      inputs := .fixed (d.axes.map fun x => dataSpec x "float" (real 0))
      outputs := .fixed [dataSpec "result" t]
      metadata := vectorMeta ("Make " ++ title) ("Build a " ++ t ++ " from components") },
    { typeName := "Break" ++ title, behaviour := .function (some (.breakVector d))
      inputs := .fixed [v], outputs := .fixed (d.axes.map fun x => dataSpec x "float")
      metadata := vectorMeta ("Break " ++ title) ("Split a " ++ t ++ " into components") },
    binary (vectorMeta (about "Add") "A + B") ("Add" ++ title) a b t (.addVectors d),
    binary (vectorMeta (about "Subtract") "A - B") ("Subtract" ++ title) a b t (.subVectors d),
    binary (vectorMeta (about "Scale") "Vector * scalar") ("Scale" ++ title) v
      (dataSpec "scalar" "float" (real 1)) t (.scaleVector d),
    binary (vectorMeta (about "Dot") "Dot product") ("Dot" ++ title) a b "float" .dot,
    binary (vectorMeta (about "Equal") "Component-wise equality") ("Equal" ++ title) a b "boolean" .equalVectors,
    unary (vectorMeta (about "Length") "Euclidean length") ("Length" ++ title) v "float" .norm,
    unary (vectorMeta (about "Normalize") "Unit vector (zero stays zero)") ("Normalize" ++ title) v t (.normalize d),
    ternary (vectorMeta (about "Lerp") "Linear interpolation between A and B") ("Lerp" ++ title) a b
      (dataSpec "t" "float" oneHalf) t (.blendVectors d),
    constant (vectorMeta (title ++ " Constant") ("Literal " ++ t ++ " value")) ("Constant" ++ title) t ]

def crossNode : Definition :=
  binary (vectorMeta "Cross (Vec3)" "Cross product") "CrossVec3" (dataSpec "a" "vec3") (dataSpec "b" "vec3")
    "vec3" .cross

/-- The vector profile builds on floats and booleans. -/
def vectors : Profile := fun r => do
  r.requireValues "vectors" ["float", "boolean"]
  return r.extend
    { values := [.vector .two, .vector .three]
      nodes := vectorNodes .two ++ vectorNodes .three ++ [crossNode] }

end FlowGraph.Catalogue
