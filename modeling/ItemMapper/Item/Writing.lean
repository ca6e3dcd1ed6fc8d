import ItemMapper.Item.Filling
import ItemMapper.Item.Shaping

/-!
# Writing an item

An item on its way to the store: filled with defaults, its texts shaped, its setters called with the item as it
was given, and pruned.
-/

namespace ItemMapper.Node

def forStore (n : Node) (item context : Value) : Passing Value := do
  let filled ← n.fill item "" "" item
  let shaped ← n.shape "" "" filled
  let assigned ← n.setValue ⟨item, context⟩ "" "" shaped
  n.prune "" "" assigned

end ItemMapper.Node
