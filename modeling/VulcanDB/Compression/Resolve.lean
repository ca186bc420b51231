import VulcanDB.Compression.Sections

/-!
# Compression — Resolve

The two steps of the compressor.  Step 1 goes over the DATA section: an instance without
references is matched against the bases found so far at once, the others are kept.  Step 2 goes
over what was kept, again and again: an instance whose references have all been rewritten is
matched, then the rest are rewritten with the base ids found meanwhile.

`IfcCompressorAna` is the same program without a file to write: it keeps only the instances with
references, and writes a base to `baseInstance` instead of numbering it in place.  The two are one
model here, with a `Program` saying which of them runs.

What goes to the console, to the CSV file and to the report of `IfcCompressorAna` is left out, and
with it `iterCount`, `entity_num` and the counts by type.
-/

namespace VulcanDB.Compression

open Cxx

/-- `IfcCompressor` in any overload, or `IfcCompressorAna`. -/
inductive Program where
  | compressor
  | ana
  deriving DecidableEq

/-- `mSet`: the bases, where they are kept, the base of each id and the base of each type and
content. -/
structure MatchSet where
  baseInstance : List Str
  index : List ℕ
  idBaseID : StdMap Int ℕ
  typeContent : StdMap Str (StdMap Str ℕ)

/-- An entry of `umSet.instance` with its entry of `umSet.flag`. -/
abbrev Slot := IfcInstance × Bool

/-- `umSet`: the instances that are kept, and how many are still to be matched. -/
structure UnmatchSet where
  slots : List Slot
  totalCount : Int

/-- What both steps change. -/
structure Work where
  newInc : ℕ
  deleteCount : ℕ
  totalCount : ℕ
  mSet : MatchSet
  umSet : UnmatchSet

/-- Before the first instance. -/
def Work.start : Work := ⟨0, 0, 0, ⟨[], [], ∅, ∅⟩, ⟨[], 0⟩⟩

/-! ### Matching an instance -/

/-- The lookup of `type` and `content` in `mSet.type_content`, for an instance whose content is
final: a base of its own, counted by `newInc`, or one found.  The last component says which. -/
def matchInstance (ist : IfcInstance) (w : Work) : Work × Bool :=
  match w.mSet.typeContent.find ist.type with
  | none =>
    ({ w with
      newInc := w.newInc + 1
      mSet := { w.mSet with
        typeContent := w.mSet.typeContent.insertNew ist.type
          (StdMap.insertNew ∅ ist.content (w.newInc + 1))
        idBaseID := w.mSet.idBaseID.insertNew ist.id (w.newInc + 1) } }, true)
  | some contentId =>
    match contentId.find ist.content with
    | none =>
      ({ w with
        newInc := w.newInc + 1
        mSet := { w.mSet with
          typeContent := w.mSet.typeContent.assign ist.type
            (contentId.insertNew ist.content (w.newInc + 1))
          idBaseID := w.mSet.idBaseID.insertNew ist.id (w.newInc + 1) } }, true)
    | some baseID =>
      ({ w with
        deleteCount := w.deleteCount + 1
        mSet := { w.mSet with idBaseID := w.mSet.idBaseID.insertNew ist.id baseID } }, false)

/-- What `IfcCompressorAna` adds to `baseInstance`. -/
def Work.emit (w : Work) (ist : IfcInstance) : Work :=
  { w with mSet := { w.mSet with
      baseInstance := w.mSet.baseInstance ++ [({ ist with id := w.newInc }).text ++ ['\n']] } }

/-! ### Step 1 -/

/-- A new base found in Step 1. -/
def addBase (prog : Program) (ist : IfcInstance) (w : Work) : Work :=
  match prog with
  | .compressor =>
    { w with
      mSet := { w.mSet with index := w.mSet.index ++ [w.umSet.slots.length] }
      umSet := ⟨w.umSet.slots ++ [({ ist with id := w.newInc }, false)], w.umSet.totalCount - 1⟩ }
  | .ana => w.emit ist

/-- The loop body of Step 1 from `++totalCount` on. -/
def addInstance (prog : Program) (mode : Mode) (line : Str) (w : Work) : Except Fault Work := do
  let w := { w with totalCount := w.totalCount + 1 }
  let (id, type, content, cite) ← ifcInstanceAna mode line
  let ist : IfcInstance := ⟨id, type, content, cite.isEmpty⟩
  if ist.flag then
    let (w, isNew) := matchInstance ist w
    return if isNew then addBase prog ist w else w
  else
    return { w with umSet := { w.umSet with slots := w.umSet.slots ++ [(ist, true)] } }

/-- The content of one slot with the base ids put in, and whether every id had one. -/
def rewriteSlot (rel : StdMap Int ℕ) (s : Slot) : Except Fault Slot := do
  let (allFind, content) ← standardContentRel s.1.content rel
  return ({ s.1 with content := content, flag := allFind }, s.2)

/-- The loop that rewrites the contents of the slots that `which` picks. -/
def rewriteSlots (rel : StdMap Int ℕ) (which : Slot → Bool) :
    List Slot → Except Fault (List Slot)
  | [] => .ok []
  | s :: slots => do
    let s ← if which s then rewriteSlot rel s else pure s
    let slots ← rewriteSlots rel which slots
    return s :: slots

/-- The end of Step 1: every slot is counted, and every content rewritten. -/
def endStep1 (w : Work) : Except Fault Work := do
  let slots ← rewriteSlots w.mSet.idBaseID (fun _ => true) w.umSet.slots
  return { w with umSet := ⟨slots, w.umSet.totalCount + w.umSet.slots.length⟩ }

/-! ### Step 2 -/

/-- A new base found in slot `i` of Step 2. -/
def moveBase (prog : Program) (i : ℕ) (ist : IfcInstance) (w : Work) : Work × IfcInstance :=
  match prog with
  | .compressor =>
    ({ w with mSet := { w.mSet with index := w.mSet.index ++ [i] } }, { ist with id := w.newInc })
  | .ana => (w.emit ist, ist)

/-- The first loop of a pass over the slots from number `i` on, which are matched in place. -/
def matchSlots (prog : Program) : ℕ → List Slot → Work → Work × List Slot
  | _, [], w => (w, [])
  | i, (ist, flag) :: slots, w =>
    if flag && ist.flag then
      let (w, isNew) := matchInstance ist w
      let (w, ist) := if isNew then moveBase prog i ist w else (w, ist)
      let w := { w with umSet := { w.umSet with totalCount := w.umSet.totalCount - 1 } }
      let (w, slots) := matchSlots prog (i + 1) slots w
      (w, (ist, false) :: slots)
    else
      -- the test `!isSt2` comes first in the source, but `isSt2` is never cleared
      let (w, slots) := matchSlots prog (i + 1) slots w
      (w, (ist, flag) :: slots)

/-- One pass of Step 2. -/
def pass (prog : Program) (w : Work) : Except Fault Work := do
  let (w, slots) := matchSlots prog 0 w.umSet.slots w
  let slots ← rewriteSlots w.mSet.idBaseID (fun s => s.2) slots
  return { w with umSet := { w.umSet with slots := slots } }

/-- `while (umSet.totalCount != 0)`. -/
def resolveLoop (prog : Program) : ℕ → Work → Option (Except Fault Work)
  | 0, _ => none
  | fuel + 1, w =>
    if w.umSet.totalCount = 0 then some (.ok w)
    else match pass prog w with
      | .error e => some (.error e)
      | .ok w => resolveLoop prog fuel w

/-! ### The programs -/

/-- `umSet.instance[mSet.index[i]]` for every `i`. -/
def reserved (slots : List Slot) : List ℕ → Except Fault (List IfcInstance)
  | [] => .ok []
  | j :: index =>
    match slots[j]? with
    | none => .error .badIndex
    | some s => (reserved slots index).map (s.1 :: ·)

/-- `ifcEnd`: the section's end and the lines after it. -/
def ifcEnd (is : IStream) : Str :=
  ENDSEC ++ ['\n'] ++ if is.eof then [] else terminated '\n' (getlines '\n' is.rest)

/-- Both steps on an input: `ifcHead`, the stream after the section and the final state. -/
def steps (prog : Program) (mode : Mode) (head : HeadLoop) (fuel : ℕ) (text : Str) :
    Option (Except Fault (Str × IStream × Work)) :=
  match reading (addInstance prog mode) head fuel text Work.start with
  | none => none
  | some (.error e) => some (.error e)
  | some (.ok (ifcHead, is, w)) =>
    match endStep1 w with
    | .error e => some (.error e)
    | .ok w => (resolveLoop prog fuel w).map (·.map fun w => (ifcHead, is, w))

/-- A written file, and the state it was written from. -/
structure Output where
  text : Str
  work : Work

/-- The end of `IfcCompressor`: the bases by `index`, what is still flagged, and `ifcEnd`. -/
def write (ifcHead : Str) (is : IStream) (w : Work) : Except Fault Output := do
  let bases ← reserved w.umSet.slots w.mSet.index
  let flagged := (w.umSet.slots.filter (·.2)).map (·.1)
  return ⟨ifcHead ++ terminated '\n' ((bases ++ flagged).map (·.text)) ++ ifcEnd is, w⟩

/-- `IfcCompressor`.  Past `INT_MAX` instances the counters overflow. -/
def ifcCompressor (mode : Mode) (head : HeadLoop) (fuel : ℕ) (text : Str) :
    Option (Except Fault Output) :=
  match steps .compressor mode head fuel text with
  | none => none
  | some (.error e) => some (.error e)
  | some (.ok (ifcHead, is, w)) =>
    if INT_MAX < w.totalCount then some (.error .overflow) else some (write ifcHead is w)

/-- `IfcCompressorAna`: the state it reports `totalCount` and `deleteCount` from. -/
def ifcCompressorAna (mode : Mode) (fuel : ℕ) (text : Str) : Option (Except Fault Work) :=
  (steps .ana mode .forGetline fuel text).map (·.map fun r => r.2.2)

end VulcanDB.Compression
