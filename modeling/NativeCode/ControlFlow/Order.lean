import NativeCode.Failure
import NativeCode.Ir.Module

/-!
# The order of blocks

Blocks are emitted in reverse post-order of a depth-first search from the entry, so that a block
comes before the blocks it leads to unless they lead back. The false side of a branch is searched
first, which puts the true side first in the order. Blocks that cannot be reached are left out.
-/

namespace NativeCode.ControlFlow

open NativeCode.Ir (Block Function)

/-- The state of a search: the numbers of the blocks it has seen, and the blocks it has finished,
the latest first. -/
structure Search where
  seen : List Nat := []
  finished : List Block := []
  deriving Inhabited

def missing (b : Block) (target : Nat) : Failure where
  cause := .jumpToMissing b.id target
  construct := b.term.text
  loc := b.term.loc

/-- Searches below each of the successors of `b` that have not been seen, with `descend` for one of
them. -/
def exploreEach (f : Function) (descend : Block → Search → Except Failure Search) (b : Block) :
    List Nat → Search → Except Failure Search
  | [], s => .ok s
  | id :: ids, s =>
    if s.seen.contains id then exploreEach f descend b ids s
    else
      match f.block? id with
      | none => .error (missing b id)
      | some next => do
        let s ← descend next s
        exploreEach f descend b ids s

/-- Searches below a block that has not been seen. The depth of the search is at most `fuel`. -/
def explore (f : Function) : Nat → Block → Search → Except Failure Search
  | 0, _, s => .ok s
  | fuel + 1, b, s => do
    let s ← exploreEach f (explore f fuel) b b.term.successors.reverse
      { s with seen := b.id :: s.seen }
    return { s with finished := b :: s.finished }

/-- The reachable blocks of a function in the order of emission. Each step down sees a new block, so
the number of blocks bounds the depth. -/
def order (f : Function) : Except Failure (List Block) :=
  match f.blocks with
  | [] => fail (.functionWithoutEntry f.name) f.name
  | entry :: _ => do return (← explore f f.blocks.length entry {}).finished

end NativeCode.ControlFlow
