import Marginalia.Report.Rendering
import Marginalia.Store.Basic
import Marginalia.View.ListPatch

/-!
# The report panel

The panel lists the reports of the store in order. Its items are patched, never rebuilt: the item
of a report that stays keeps its id, and ids are not used twice. The first item of the selected
report is the selected item. Keys move along the list, run actions by their access keys and leave
the panel.
-/

namespace Marginalia

/-- An entry of the panel. -/
structure Panel.Item where
  id : Nat
  report : Report
  keys : List (Option Char)
  selected : Bool
  deriving DecidableEq, Repr

/-- The items of an open panel; ids from `nextId` on are free. -/
structure Panel where
  items : List Panel.Item
  nextId : Nat
  deriving DecidableEq, Repr

namespace Panel

/-- What happened to the list that the host shows. -/
inductive Change where
  | inserted (index id : Nat)
  | removed (index id : Nat)
  deriving DecidableEq, Repr

/-- What a host has to do to follow the panel. -/
structure Update where
  changes : List Change
  /-- The item that has just become the selected one. -/
  newlySelected : Option Nat
  /-- The selected item. -/
  active : Option Nat
  deriving DecidableEq, Repr

/-- A panel without items. -/
def empty : Panel := ⟨[], 0⟩

/-- The name of an item in the page. -/
def itemName (id : Nat) : String := "item_" ++ String.ofList (Nat.toDigits 16 id)

/-- A new item for a report. -/
def Item.ofReport (id : Nat) (r : Report) : Item := ⟨id, r, AccessKey.ofActions r.actions, false⟩

/-- What an item displays. -/
def Item.render (item : Item) : Rendering := Rendering.ofReport true item.report

/-- The index of the selected item. -/
def selectedIndex (p : Panel) : Option Nat := p.items.findIdx? (·.selected)

/-- The id of the selected item. -/
def activeId (p : Panel) : Option Nat := (p.items.find? (·.selected)).map (·.id)

/-- Make one step of a patch on the items, with a new item for an inserted report, and say what
happened. -/
def patchStep (p : Panel) : ListPatch.Step Report → Panel × List Change
  | .insert index r =>
    (⟨p.items.insertIdx index (.ofReport p.nextId r), p.nextId + 1⟩, [.inserted index p.nextId])
  | .remove index =>
    match p.items[index]? with
    | some item => ({ p with items := p.items.eraseIdx index }, [.removed index item.id])
    | none => (p, [])

/-- Make the steps of a patch in order. -/
def patch (p : Panel) : List (ListPatch.Step Report) → Panel × List Change
  | [] => (p, [])
  | step :: rest =>
    let (p, changes) := p.patchStep step
    let (p, more) := patch p rest
    (p, changes ++ more)

/-- Select the first item of the report, and no other item. -/
def markSelected (report : Option Report) : List Item → List Item
  | [] => []
  | item :: rest =>
    if some item.report = report then
      { item with selected := true } :: rest.map ({ · with selected := false })
    else { item with selected := false } :: markSelected report rest

/-- The id of the first item of the report, if it is not selected yet. -/
def newlyMarked (report : Option Report) (items : List Item) : Option Nat :=
  ((items.find? fun item => some item.report == report).filter (!·.selected)).map (·.id)

/-- Bring the items in line with the store. -/
def sync (p : Panel) (s : Store) : Panel × Update :=
  let (patched, changes) := p.patch (ListPatch.between (p.items.map (·.report)) s.reports)
  let selected := s.selected.map (·.report)
  let synced := { patched with items := markSelected selected patched.items }
  (synced, ⟨changes, newlyMarked selected patched.items, synced.activeId⟩)

/-- A panel that shows the store. -/
def opened (s : Store) : Panel × Update := empty.sync s

/-- A key that the panel responds to. -/
inductive Key where
  | escape
  | arrowUp
  | pageUp
  | arrowDown
  | pageDown
  | home
  | endKey
  | enter
  | letter (c : Char)
  deriving DecidableEq, Repr

/-- The name of a key as keyboards report it. -/
def Key.name : Key → String
  | .escape => "Escape"
  | .arrowUp => "ArrowUp"
  | .pageUp => "PageUp"
  | .arrowDown => "ArrowDown"
  | .pageDown => "PageDown"
  | .home => "Home"
  | .endKey => "End"
  | .enter => "Enter"
  | .letter c => c.toString

/-- The key of a name as keyboards report it. A name of one ASCII letter is that letter. -/
def Key.ofName? : String → Option Key
  | "Escape" => some .escape
  | "ArrowUp" => some .arrowUp
  | "PageUp" => some .pageUp
  | "ArrowDown" => some .arrowDown
  | "PageDown" => some .pageDown
  | "Home" => some .home
  | "End" => some .endKey
  | "Enter" => some .enter
  | other =>
    match other.toList with
    | [c] => if c.isAlpha then some (.letter c) else none
    | _ => none

/-- What a key asks for. -/
inductive Request where
  /-- Close the panel and go to the document. -/
  | close
  /-- Select the item at an index. -/
  | select (index : Nat)
  /-- Go to the document. -/
  | focusDocument
  /-- Run an action of the report at an index. -/
  | invoke (item action : Nat)
  /-- Swallow the key. -/
  | consume
  deriving DecidableEq, Repr

/-- What a letter asks for while the item at `index` is selected. -/
def letterRequest (p : Panel) (c : Char) (index : Nat) : Request :=
  match p.items[index]? with
  | none => .consume
  | some item =>
    match AccessKey.holder? item.keys c with
    | some action => .invoke index action
    | none => .consume

/-- What a key asks for. Keys that move from the selected item, or act on it, ask for nothing
while no item is selected. -/
def request? (p : Panel) : Key → Option Request
  | .escape => some .close
  | .arrowUp | .pageUp =>
    p.selectedIndex.map fun i => .select ((i + p.items.length - 1) % p.items.length)
  | .arrowDown | .pageDown =>
    p.selectedIndex.map fun i => .select ((i + 1) % p.items.length)
  | .home => some (if p.items.isEmpty then .consume else .select 0)
  | .endKey => some (if p.items.isEmpty then .consume else .select (p.items.length - 1))
  | .enter => some .focusDocument
  | .letter c => p.selectedIndex.map (p.letterRequest c)

/-- The class of the panel. -/
def panelClass : String := "cm-panel-diagnostic"

/-- The role of the list for screen readers. -/
def listRole : String := "listbox"

/-- The role of an item for screen readers. -/
def itemRole : String := "option"

/-- The label of the list for screen readers. -/
def listLabel : String := "Reports"

end Panel

end Marginalia
