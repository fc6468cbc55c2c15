import Groundplan.Workspace.Basic

/-!
# Trees in messages

How an app, a node or a reference looks where a message shows it as a value: its fields in order. What
is met again inside itself is cut short.
-/

namespace Groundplan

namespace StackState

/-- A state as a value in a message. -/
def display : StackState → String
  | .empty => "<StackState.EMPTY: 'empty'>"
  | .building => "<StackState.BUILDING: 'building'>"
  | .synthesized => "<StackState.SYNTHESIZED: 'synthesized'>"

end StackState

namespace Workspace

/-- A name that may be missing, as a value in a message. -/
def displayName (name : Option String) : String := (name.map Text.quoted).getD "None"

/-- What references and entities look like inside those in `inside`, at most `fuel` deep. -/
def namingInside (w : Workspace) : Nat → List Entity → Naming
  | 0, _ => Naming.bare
  | fuel + 1, inside =>
      let entity (e : Entity) : String :=
        if inside.contains e then "..."
        else
          let inner := w.namingInside fuel (e :: inside)
          match e with
          | .object _ => "<object object>"
          | .app a =>
              let shown := (w.app a).registry.map fun (name, n) =>
                Text.quoted name ++ ": " ++ inner.entity (.node n true)
              "App(outdir=" ++ Text.quoted (w.app a).outdir ++ ", stacks=" ++ braced shown ++ ")"
          | .node n isStack =>
              let node := w.node n
              let state := (node.stack.map fun s => ", state=" ++ s.state.display).getD ""
              e.typeName ++ "(node_id=" ++ Text.quoted node.id ++ ", kind=" ++
                displayName node.kind.name? ++ ", type_tag=" ++ displayName node.typeTag ++
                ", properties=" ++ (w.propertiesOf n).display inner ++
                (if isStack then state else "") ++ ")"
      let isLong (e : Entity) : Bool :=
        if inside.contains e then false
        else
          let inner := w.namingInside fuel (e :: inside)
          match e with
          | .object _ => false
          | .app a => (w.app a).registry.any fun (_, n) => inner.isLongEntity (.node n true)
          | .node n _ => (w.propertiesOf n).isLong inner
      { entity := entity
        reference := fun r =>
          "Reference(target=" ++ entity (.node r.target (w.node r.target).isStack) ++
            ", attribute=" ++ Text.quoted r.attr ++ ")"
        isLongEntity := isLong
        isLongReference := fun r => isLong (.node r.target (w.node r.target).isStack)
        digits := w.limits.digits }

/-- What references and entities look like. -/
def naming (w : Workspace) : Naming := w.namingInside (w.nodes.size + w.apps.size + 1) []

/-- The text of a value, quoted if it is a text. -/
def display (w : Workspace) (v : Value) : String := (w.heap.datum v).display w.naming

end Workspace

end Groundplan
