import MiniOS.Log.Header

namespace MiniOS

/-- What can be seen of the block layer. -/
inductive StoreEvent
  | read (b : Nat) (v : Block)
  | modify (b : Nat) (v : Block)
  | commit
  | install (b : Nat) (v : Block)

/-- A plain store of blocks. `current` has every modification that was logged,
`committed` those of the transactions that have committed, and `home` is what
is at the home locations on the disk. -/
structure PlainStore where
  current : Nat → Block
  committed : Nat → Block
  home : Nat → Block

/-- A read gives the latest modification of the block. Only what has committed is installed. -/
inductive PlainStore.Step (a : PlainStore) : Option StoreEvent → PlainStore → Prop
  | idle : Step a none a
  | read {b : Nat} : Step a (some (.read b (a.current b))) a
  | modify {b : Nat} {v : Block} :
      Step a (some (.modify b v)) { a with current := Function.update a.current b v }
  | commit : Step a (some .commit) { a with committed := a.current }
  | install {b : Nat} : Step a (some (.install b (a.committed b)))
      { a with home := Function.update a.home b (a.committed b) }

end MiniOS
