import PolicyGates.Value.Basic
/-!
# Members that every object has

An object has the members that it was given and some that all objects share: a few operations under
their names, and under `__proto__` the object that holds these.  They come to light where a
name that nobody has checked is looked up in a table, since a table is an object too.

In sums and comparisons an operation stands for its text.  An answer cannot tell it, so null stands
in its place there.
-/
namespace PolicyGates

inductive SharedMember where
  /-- An operation, with the name that its text shows. -/
  | operation (name : String)
  /-- The object that holds what all objects share. -/
  | root
  deriving DecidableEq, Repr

namespace SharedMember

/-- The names of the shared operations, each with the name that its text shows. -/
def operations : List (String × String) :=
  [("constructor", "Object"), ("toString", "toString"), ("toLocaleString", "toLocaleString"),
   ("valueOf", "valueOf"), ("hasOwnProperty", "hasOwnProperty"), ("isPrototypeOf", "isPrototypeOf"),
   ("propertyIsEnumerable", "propertyIsEnumerable"), ("__defineGetter__", "__defineGetter__"),
   ("__defineSetter__", "__defineSetter__"), ("__lookupGetter__", "__lookupGetter__"),
   ("__lookupSetter__", "__lookupSetter__")]

def ofName? (name : Text) : Option SharedMember :=
  if name = .whole "__proto__" then some .root
  else (operations.find? (fun p => .whole p.1 == name)).map (fun p => .operation p.2)

def toValue : SharedMember → Value
  | .operation name => .str ("function " ++ name ++ "() \x7b [native code] \x7d")
  | .root => .obj []

def told : SharedMember → Value
  | .operation _ => .null
  | .root => .obj []

end SharedMember

end PolicyGates
