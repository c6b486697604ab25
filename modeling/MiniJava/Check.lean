import MiniJava.Check.Duplicates
import MiniJava.Check.Names
import MiniJava.Check.Structure
import MiniJava.Check.Types

/-!
# Checking a program

Four checks (`analyze`), none of which depends on another: names declared twice, structure, types
and names. A program is accepted if none of them finds an error.
-/

namespace MiniJava

/-- The errors of a program, one check after the other. -/
def analyzeWith (scopeOf : ScopeOf) (t : SymbolTable) (root : Node) : List SemanticError :=
  checkDuplicates root ++ checkStructure scopeOf t root ++ checkTypes scopeOf root ++
    checkNames scopeOf root

/-- The errors of a program, given its symbol table. -/
def analyze (t : SymbolTable) (root : Node) : List SemanticError :=
  analyzeWith (Scope.ofMethod t) t root

end MiniJava
