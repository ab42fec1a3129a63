/-!
# How a call can fail

Exceptions carry their text, so that a caller's message can be compared with the
source's. Assertions are named one by one: a claim of the form "this assertion
never fires" is a claim about one of these names.

The other ways to fail are the machine's. Reading a mapped page that the file does
not reach is a `busError`, and reading a string past its end is `outOfBounds`. Counters
are modelled as natural numbers, and a call that would push a page number or a list
position out of `uint64_t` ends in `overflow` instead of wrapping. A recursion the source
writes without a bound takes one here, and running out of it is `diverges`; every
specification shows that its calls never do.
-/

namespace SqlDb

/-- The assertions of the source, in the order of its files. -/
inductive Assertion where
  /-- `node_append_kv`: `key.size() <= BTREE_MAX_KEY_SIZE` -/
  | appendKey
  /-- `node_append_kv`: `val.size() <= BTREE_MAX_VAL_SIZE` -/
  | appendVal
  /-- `node_append_kv`: `pos + 4 + klen + vlen <= size()` -/
  | appendSize
  /-- `encode`: `used <= BTREE_PAGE_SIZE` -/
  | encodeUsed
  /-- `decode`: `page.size() == BTREE_PAGE_SIZE` -/
  | decodeSize
  /-- `node_split`: `old.nkeys() >= 2` -/
  | splitKeys
  /-- `node_split`: `nleft >= 1` -/
  | splitNleft
  /-- `node_split`: `nleft < old.nkeys()` -/
  | splitNright
  /-- `node_split`: `left.nbytes() <= BTREE_PAGE_SIZE` -/
  | splitLeftBytes
  /-- `node_split`: `right.nbytes() <= BTREE_PAGE_SIZE` -/
  | splitRightBytes
  /-- `tree_insert`: `idx >= 0` -/
  | insertIdx
  /-- `tree_insert`: bad node type -/
  | insertType
  /-- `tree_delete`: `idx >= 0` -/
  | deleteIdx
  /-- `tree_delete`: bad node type -/
  | deleteType
  /-- `node_delete`: `old.nkeys() == 1 && idx == 0` -/
  | deleteLone
  /-- `BIter::deref`: `valid()` -/
  | iterValid
  /-- `BTree::seek_le`: `idx >= 0` -/
  | seekIdx
  /-- `FreeList::pop`: `state_.head_page != 0` -/
  | popHead
  /-- `FreeList::push_tail`: `ptr != 0` -/
  | pushPtr
  /-- `FreeList::push_tail`: `!version_before(version, min_reader)` -/
  | pushVersion
  /-- `ReaderHeap::remove`: the index is a slot -/
  | heapIndex
  /-- `encode_key_partial`: `col >= 0` -/
  | padColumn
  /-- `index_op`: `tdef.index_prefixes.size() == tdef.indexes.size()` -/
  | indexPrefixes
  /-- `index_op`: `v != nullptr` -/
  | indexValue
  /-- `index_op`: `done` -/
  | indexDone
  /-- `Scanner::next` and `Scanner::deref`: `valid()` -/
  | scanValid
  /-- `Scanner::deref`: `val.empty()` -/
  | scanIndexVal
  /-- `Scanner::deref`: `v != nullptr` -/
  | scanColumn
  /-- `Scanner::deref`: index key without a matching row -/
  | scanFound
deriving DecidableEq, Repr

/-- A call that did not return. -/
inductive Fault where
  | throws (what : String)
  | asserts (a : Assertion)
  | busError
  | outOfBounds
  | overflow
  | diverges
deriving DecidableEq, Repr

end SqlDb
