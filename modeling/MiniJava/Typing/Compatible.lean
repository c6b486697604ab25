import MiniJava.SymbolTable

/-!
# Which values a variable takes

A variable takes values of its own type (`assignable`). Classes that are imported are not known to
the compiler, so in addition it trusts that an imported class, or the superclass, fits where it is
used (`assume_external`); arrays never fit where single values are asked for, and primitive types
fit only themselves.
-/

namespace MiniJava.SymbolTable

/-- A value of one type is trusted to fit a variable of another because a class outside the program
is involved. -/
def trusts (t : SymbolTable) (target value : Ty) : Bool :=
  if target.isArray != value.isArray then false
  else if target.isPrimitiveName || value.isPrimitiveName then false
  else if t.superclass.isSome && (value.name == t.className || target.name == t.className) then true
  else t.isImported target.name || (t.isImported value.name && target.name != t.className)

/-- A variable takes a value: the types are equal, or the value is trusted to fit. -/
def assignable (t : SymbolTable) (target value : Ty) : Bool :=
  target = value || t.trusts target value

end MiniJava.SymbolTable
