import LetLang.Node

/-!
# Listings

The live nodes of an arena, one entry for each, in order of creation.
-/

namespace LetLang

structure Entry where
  id : Nat
  parent : Nat
  node : Node
  children : List Nat
  deriving Repr, DecidableEq

def listing (a : Arena Node) : List Entry :=
  a.numbered.filterMap fun p =>
    if p.2.live then some ⟨p.1, p.2.parent, p.2.value, a.children p.1⟩ else none

end LetLang
