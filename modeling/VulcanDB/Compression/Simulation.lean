import VulcanDB.Compression.Refinement

/-!
# Compression — Simulation

The two steps compute the hash-consing passes of the instances, read as nodes: Step 1 is the
first pass, and each round of Step 2 one more.

* `addAll_reads`, `Reads.endStep1`, `Sim.pass`: reading, the end of Step 1, a round of Step 2.
* `Sim.resolveLoop_ends`, `Sim.resolveLoop_never`, `Sim.resolveLoop_ok`: the loop ends when the
  passes do.
* `Reserved.reserved`: what the index picks to be written.
-/

namespace VulcanDB.Compression

open Cxx HashCons

/-! ### Step 1 -/

/-- No id is resolved: what Step 1 decides by. -/
abbrev unresolved : Int → Option ℕ := fun _ => none

/-- The state of Step 1 after the instances with these nodes. -/
structure Reads (prog : Program) (ns : List (Node Label Int)) (w : Work) : Prop where
  tracks : Tracks w (Table.empty.internAll (ready unresolved ns))
  reserved : prog = .compressor → Reserved w.umSet.slots w.mSet.index
    (Table.empty.internAll (ready unresolved ns)).bases
  held : List.Forall₂ (Held unresolved) (flagged w.umSet.slots) (waiting unresolved ns)
  plain : ∀ s ∈ w.umSet.slots, s.2 = false → PlainContent s.1.content
  slotCount : w.umSet.totalCount + w.umSet.slots.length = (flagged w.umSet.slots).length
  counts : w.newInc + w.deleteCount + (flagged w.umSet.slots).length = w.totalCount
  total : w.totalCount = ns.length

theorem reads_start (prog : Program) : Reads prog [] Work.start where
  tracks := ⟨rfl, funext fun i => StdMap.find_empty i, by simp [ready, Table.internAll, Table.empty],
    fun key _ => by simp [ready, Table.internAll, Table.empty, MatchSet.number, Work.start]⟩
  reserved _ := ⟨rfl, fun k key h => by simp [ready, Table.internAll, Table.empty] at h⟩
  held := .nil
  plain := by simp [Work.start]
  slotCount := rfl
  counts := rfl
  total := rfl

theorem ready_append (rel : Int → Option ℕ) (ns ms : List (Node Label Int)) :
    ready rel (ns ++ ms) = ready rel ns ++ ready rel ms := List.filterMap_append

theorem waiting_append (rel : Int → Option ℕ) (ns ms : List (Node Label Int)) :
    waiting rel (ns ++ ms) = waiting rel ns ++ waiting rel ms := List.filter_append ..

/-- Without ids, the keys known are those of the instances that cite nothing. -/
theorem key_unresolved {n : Node Label Int} :
    n.key unresolved = if n.args = [] then some (n.label, []) else none := by
  unfold Node.key
  cases n.args <;> rfl

/-- The content of such an instance is that of its key. -/
theorem contentOf_plain {ts : List Str} (hts : ∀ t ∈ ts, NormToken t)
    (hc : ts.filterMap citeOf = []) (type : Str) :
    contentOf (⟨type, ts.map pieceOf⟩, []) = joinWith ',' ts := by
  have h := plainContent_rewrite ⟨ts, hts, rfl, hc⟩ ∅
  rw [standardContentRel_key ∅ 0 type hts, Node.key] at h
  simp only [nodeOf, hc, resolve, Option.map_some, Except.ok.injEq, Prod.mk.injEq, true_and] at h
  exact h

section OneInstance

variable {prog : Program} {ns : List (Node Label Int)} {w : Work} {n : Node Label Int}

/-- The table after the nodes without references. -/
def firstPass (ns : List (Node Label Int)) : Table Label Int :=
  Table.empty.internAll (ready unresolved ns)

variable (ns) in
/-- An instance without references is interned in Step 1. -/
theorem firstPass_ready {key : Key Label} (hkey : n.key unresolved = some key) :
    firstPass (ns ++ [n]) = (firstPass ns).intern n.id key ∧
      waiting unresolved (ns ++ [n]) = waiting unresolved ns := by
  constructor
  · rw [firstPass, ready_append, Table.internAll, List.foldl_append]
    simp [ready, hkey, firstPass, Table.internAll]
  · rw [waiting_append]
    simp [waiting, hkey]

variable (ns) in
theorem firstPass_waiting (hkey : n.key unresolved = none) :
    firstPass (ns ++ [n]) = firstPass ns ∧
      waiting unresolved (ns ++ [n]) = waiting unresolved ns ++ [n] := by
  constructor
  · rw [firstPass, ready_append]
    simp [ready, hkey, firstPass]
  · rw [waiting_append]
    simp [waiting, hkey]

/-- A base that is there already: nothing is written. -/
theorem Reads.merged (h : Reads prog ns w) {key : Key Label} (hkey : n.key unresolved = some key)
    (hold : key ∈ (firstPass ns).bases) {w' : Work}
    (htracks : Tracks w' ((firstPass ns).intern n.id key)) (hum : w'.umSet = w.umSet)
    (hidx : w'.mSet.index = w.mSet.index) (htot : w'.totalCount = w.totalCount + 1)
    (hcnt : w'.newInc + w'.deleteCount = w.newInc + w.deleteCount + 1) :
    Reads prog (ns ++ [n]) w' := by
  obtain ⟨htable, hwait⟩ := firstPass_ready ns hkey
  have hbases : ((firstPass ns).intern n.id key).bases = (firstPass ns).bases := if_pos hold
  refine ⟨?_, fun hprog => ?_, ?_, ?_, ?_, ?_, ?_⟩
  · show Tracks _ (firstPass (ns ++ [n]))
    rwa [htable]
  · show Reserved _ _ (firstPass (ns ++ [n])).bases
    rw [htable, hbases, hum, hidx]
    exact h.reserved hprog
  · rw [hwait, hum]
    exact h.held
  · rw [hum]
    exact h.plain
  · rw [hum]
    exact h.slotCount
  · have := h.counts
    rw [hum, htot, hcnt]
    omega
  · rw [htot, h.total, List.length_append, List.length_singleton]

/-- A new base, which `ifcCompressor` reserves in a slot and `ifcCompressorAna` writes at once. -/
theorem Reads.written (h : Reads prog ns w) {key : Key Label}
    (hkey : n.key unresolved = some key) (hnew : key ∉ (firstPass ns).bases) {w' : Work}
    (htracks : Tracks w' ((firstPass ns).intern n.id key)) (hum : w'.umSet = w.umSet)
    (hidx : w'.mSet.index = w.mSet.index) (htot : w'.totalCount = w.totalCount + 1)
    (hcnt : w'.newInc + w'.deleteCount = w.newInc + w.deleteCount + 1) {ist : IfcInstance}
    (htype : ist.type = key.1.type) (hcont : ist.content = contentOf key)
    (hplain : PlainContent ist.content) : Reads prog (ns ++ [n]) (addBase prog ist w') := by
  -- the key is ready and new, so the abstract pass has one base more
  obtain ⟨htable, hwait⟩ := firstPass_ready ns hkey
  have hbases : ((firstPass ns).intern n.id key).bases = (firstPass ns).bases ++ [key] :=
    if_neg hnew
  have hinc : (w'.newInc : Int) = ((firstPass ns).bases.length : Int) + 1 := by
    rw [htracks.newInc, hbases]
    simp
  have hcounts := h.counts
  cases prog with
  | compressor =>
      refine ⟨?_, fun _ => ?_, ?_, ?_, ?_, ?_, ?_⟩
      · show Tracks _ (firstPass (ns ++ [n]))
        rw [htable]
        exact ⟨htracks.newInc, htracks.rel, htracks.keys, htracks.number⟩
      · show Reserved _ _ (firstPass (ns ++ [n])).bases
        rw [htable, hbases]
        have hkeep : Reserved (w.umSet.slots ++ [({ ist with id := w'.newInc }, false)])
            w.mSet.index (firstPass ns).bases := by
          refine (h.reserved rfl).keep fun j i hj => ⟨i, ?_, rfl, rfl, rfl⟩
          rwa [List.getElem?_append_left (List.getElem?_eq_some_iff.mp hj).1]
        simp only [addBase, hum, hidx]
        exact hkeep.push { ist with id := w'.newInc } (by simp) hinc htype hcont
      · simp only [addBase, hum, flagged_append, flagged_cons_false, hwait]
        simpa [flagged] using h.held
      · simp only [addBase, hum, List.mem_append, List.mem_singleton]
        rintro s (hs | rfl) hf
        · exact h.plain s hs hf
        · exact hplain
      · have := h.slotCount
        simp only [addBase, hum, flagged_append, flagged_cons_false, List.length_append,
          List.length_singleton]
        simp only [flagged, List.filter_nil, List.map_nil, List.length_nil] at this ⊢
        omega
      · simp only [addBase, hum, flagged_append, flagged_cons_false, List.length_append]
        simp only [flagged, List.filter_nil, List.map_nil, List.length_nil] at hcounts ⊢
        omega
      · simp only [addBase, htot, h.total, List.length_append, List.length_singleton]
  -- the analysis keeps no base
  | ana =>
      refine ⟨?_, (fun h => by cases h), ?_, ?_, ?_, ?_, ?_⟩
      · show Tracks _ (firstPass (ns ++ [n]))
        rw [htable]
        exact ⟨htracks.newInc, htracks.rel, htracks.keys, htracks.number⟩
      · simp only [hwait, addBase, Work.emit, hum]
        exact h.held
      · simp only [addBase, Work.emit, hum]
        exact h.plain
      · simp only [addBase, Work.emit, hum]
        exact h.slotCount
      · simp only [addBase, Work.emit, hum]
        omega
      · simp only [addBase, Work.emit, htot, h.total, List.length_append, List.length_singleton]

/-- An instance with references, kept for Step 2. -/
theorem Reads.kept (h : Reads prog ns w) (hkey : n.key unresolved = none) {ist : IfcInstance}
    (hheld : Held unresolved ist n) :
    Reads prog (ns ++ [n]) { w with
      totalCount := w.totalCount + 1
      umSet := { w.umSet with slots := w.umSet.slots ++ [(ist, true)] } } := by
  obtain ⟨htable, hwait⟩ := firstPass_waiting ns hkey
  refine ⟨?_, fun hprog => ?_, ?_, ?_, ?_, ?_, ?_⟩
  · show Tracks _ (firstPass (ns ++ [n]))
    rw [htable]
    exact ⟨h.tracks.newInc, h.tracks.rel, h.tracks.keys, h.tracks.number⟩
  · show Reserved _ _ (firstPass (ns ++ [n])).bases
    rw [htable]
    refine (h.reserved hprog).keep fun j i hj => ⟨i, ?_, rfl, rfl, rfl⟩
    rwa [List.getElem?_append_left (List.getElem?_eq_some_iff.mp hj).1]
  · rw [hwait, flagged_append]
    exact List.rel_append h.held (.cons hheld .nil)
  · simp only [List.mem_append, List.mem_singleton]
    rintro s (hs | rfl) hf
    · exact h.plain s hs hf
    · cases hf
  · have := h.slotCount
    simp only [flagged_append, flagged_cons_true, List.length_append, List.length_cons]
    simp only [flagged, List.filter_nil, List.map_nil, List.length_nil] at this ⊢
    omega
  · have := h.counts
    simp only [flagged_append, flagged_cons_true, List.length_append, List.length_cons]
    simp only [flagged, List.filter_nil, List.map_nil, List.length_nil] at this ⊢
    omega
  · simp [h.total]

end OneInstance

/-- One instance read. -/
theorem Reads.addInstance {prog : Program} {ns : List (Node Label Int)} {w : Work}
    (h : Reads prog ns w) (mode : Mode) {line : Str} (hl : Whole line) (hp : Parses line) :
    ∃ w', addInstance prog mode line w = .ok w' ∧ Reads prog (ns ++ [node mode line]) w' := by
  have hparse := ifcInstanceAna_eq mode hl.ne_nil hl.trimmed hl.newline hp
  have hnorm := tokensOf_norm mode hp hl.newline
  set ts := tokensOf mode line
  have hargs : (node mode line).args = ts.filterMap citeOf := rfl
  rw [Compression.addInstance]
  simp only [bind, Except.bind, hparse]
  rw [hargs] at hparse ⊢
  by_cases hc : ts.filterMap citeOf = []
  · -- no reference: matched at once
    set key : Key Label := (⟨typeOf line, ts.map pieceOf⟩, [])
    have hkey : (node mode line).key unresolved = some key := by
      rw [key_unresolved, hargs, if_pos hc]
      rfl
    have hisKey : IsKey key := ⟨ts, hnorm, rfl, by rw [hc]; rfl⟩
    have hcont : joinWith ',' ts = contentOf key := (contentOf_plain hnorm hc _).symm
    set ist : IfcInstance := ⟨idOf line, typeOf line, joinWith ',' ts, true⟩
    set w₁ : Work := { w with totalCount := w.totalCount + 1 }
    have htr : Tracks w₁ (firstPass ns) :=
      ⟨h.tracks.newInc, h.tracks.rel, h.tracks.keys, h.tracks.number⟩
    obtain ⟨htr', hnew⟩ := htr.matchInstance ist hisKey rfl hcont
    obtain ⟨hum, hidx, htot, hcnt⟩ := matchInstance_frame ist w₁
    simp only [hc, List.isEmpty_nil, if_true]
    rcases hm : matchInstance ist w₁ with ⟨w₂, isNew⟩
    rw [hm] at htr' hnew hum hidx htot hcnt
    cases isNew with
    | false =>
        have hold : key ∈ (firstPass ns).bases := by
          by_contra hk
          exact absurd (hnew.mpr hk) Bool.false_ne_true
        exact ⟨w₂, rfl, h.merged hkey hold htr' hum hidx htot hcnt⟩
    | true =>
        exact ⟨addBase prog ist w₂, rfl, h.written hkey (hnew.mp rfl) htr' hum hidx htot hcnt rfl
          hcont ⟨ts, hnorm, rfl, hc⟩⟩
  · -- a reference: kept for Step 2
    have hkey : (node mode line).key unresolved = none := by
      rw [key_unresolved, hargs, if_neg hc]
    have hemp : (ts.filterMap citeOf).isEmpty = false := by simpa using hc
    simp only [hemp, Bool.false_eq_true, if_false]
    refine ⟨_, rfl, h.kept hkey ⟨ts, hnorm, rfl, ?_⟩⟩
    rw [hkey]
    exact ⟨rfl, rfl⟩

/-- The instances of a section, from any state of Step 1. -/
theorem addAll_reads_from {prog : Program} (mode : Mode) {lines : List Str}
    (hl : ∀ l ∈ lines, Whole l ∧ Parses l) : ∀ {ns : List (Node Label Int)} {w : Work},
    Reads prog ns w → ∃ w', addAll (addInstance prog mode) lines w = .ok w' ∧
      Reads prog (ns ++ lines.map (node mode)) w' := by
  induction lines with
  | nil => intro ns w h; exact ⟨w, rfl, by simpa using h⟩
  | cons l lines ih =>
      intro ns w h
      obtain ⟨hw, hp⟩ := hl l (by simp)
      obtain ⟨w₁, h₁, hr₁⟩ := h.addInstance mode hw hp
      obtain ⟨w₂, h₂, hr₂⟩ := ih (fun m hm => hl m (by simp [hm])) hr₁
      refine ⟨w₂, by rw [addAll, h₁]; exact h₂, ?_⟩
      simpa using hr₂

/-- **Step 1 is the first pass**, up to the rewriting at its end. -/
theorem addAll_reads (prog : Program) (mode : Mode) (lines : List Str)
    (hl : ∀ l ∈ lines, Whole l ∧ Parses l) :
    ∃ w, addAll (addInstance prog mode) lines Work.start = .ok w ∧
      Reads prog (lines.map (node mode)) w :=
  addAll_reads_from mode hl (reads_start prog)

/-! ### Step 2 -/

/-- The state after `k` passes over the nodes. -/
structure Sim (prog : Program) (ns : List (Node Label Int)) (k : ℕ) (w : Work) : Prop where
  tracks : Tracks w (after ns k).1
  reserved : prog = .compressor → Reserved w.umSet.slots w.mSet.index (after ns k).1.bases
  held : List.Forall₂ (Held (after ns k).1.rel) (flagged w.umSet.slots) (after ns k).2
  slotCount : w.umSet.totalCount = (flagged w.umSet.slots).length
  counts : w.newInc + w.deleteCount + (flagged w.umSet.slots).length = w.totalCount
  total : w.totalCount = ns.length

/-- `umSet.totalCount` counts what still waits. -/
theorem Sim.slotCount_waiting {prog : Program} {ns : List (Node Label Int)} {k : ℕ} {w : Work}
    (h : Sim prog ns k w) : w.umSet.totalCount = (after ns k).2.length := by
  rw [h.slotCount, h.held.length_eq]

/-- The first pass decides without ids. -/
theorem after_one (ns : List (Node Label Int)) : after ns 1 =
    (Table.empty.internAll (ready unresolved ns), waiting unresolved ns) := rfl

theorem flagged_length_of_held {rel : Int → Option ℕ} {slots slots' : List Slot}
    {W : List (Node Label Int)} (h : List.Forall₂ (Held rel) (flagged slots') W)
    (h' : (flagged slots).length = W.length) : (flagged slots').length = (flagged slots).length := by
  rw [h.length_eq, h']

/-- **The end of Step 1** is the state after one pass. -/
theorem Reads.endStep1 {prog : Program} {ns : List (Node Label Int)} {w : Work}
    (h : Reads prog ns w) : ∃ w', endStep1 w = .ok w' ∧ Sim prog ns 1 w' := by
  obtain ⟨slots, hs, hlen, hheld, hkeep⟩ := rewriteSlots_spec w.mSet.idBaseID
    (fun _ => true) h.held (fun n hn => (mem_waiting.mp hn).2) (fun _ _ _ => rfl)
    fun s hs hf _ => h.plain s hs hf
  refine ⟨_, by rw [Compression.endStep1, hs]; rfl, ?_⟩
  have hflag := flagged_length_of_held hheld h.held.length_eq
  refine ⟨?_, fun hprog => (h.reserved hprog).keep hkeep, ?_, ?_, ?_, h.total⟩
  · exact ⟨h.tracks.newInc, h.tracks.rel, h.tracks.keys, h.tracks.number⟩
  · rw [after_one, ← h.tracks.rel]; exact hheld
  · simp only [hflag]; exact h.slotCount
  · simp only [hflag]; exact h.counts

/-- What the first loop of a pass makes of the slots after `done`: the waiting nodes whose keys
are known are interned, the others stay. -/
structure Matches (prog : Program) (rel₀ : Int → Option ℕ) (done slots : List Slot)
    (W : List (Node Label Int)) (w : Work) (T : Table Label Int) (w' : Work) (slots' : List Slot) :
    Prop where
  eq : matchSlots prog done.length slots w = (w', slots')
  tracks : Tracks w' (T.internAll (ready rel₀ W))
  reserved : prog = .compressor →
    Reserved (done ++ slots') w'.mSet.index (T.internAll (ready rel₀ W)).bases
  held : List.Forall₂ (Held rel₀) (flagged slots') (waiting rel₀ W)
  slotCount : w'.umSet.totalCount + (flagged slots).length =
    w.umSet.totalCount + (flagged slots').length
  counts : w'.newInc + w'.deleteCount + (flagged slots').length =
    w.newInc + w.deleteCount + (flagged slots).length
  total : w'.totalCount = w.totalCount

/-- A slot the loop passes over: it is not flagged, or its key is not known. -/
theorem Matches.skip {prog : Program} {rel₀ : Int → Option ℕ} {done slots slots' : List Slot}
    {W : List (Node Label Int)} {w w' : Work} {T : Table Label Int} {ist : IfcInstance}
    {flag : Bool} (h : Matches prog rel₀ (done ++ [(ist, flag)]) slots W w T w' slots')
    (hf : (flag && ist.flag) = false) {n : List (Node Label Int)}
    (hn : List.Forall₂ (Held rel₀) (flagged [(ist, flag)]) n) (hkey : ∀ m ∈ n, m.key rel₀ = none) :
    Matches prog rel₀ done ((ist, flag) :: slots) (n ++ W) w T w' ((ist, flag) :: slots') := by
  have hready : ready rel₀ (n ++ W) = ready rel₀ W := by
    rw [ready_append, ready, List.filterMap_eq_nil_iff.mpr fun m hm => by rw [hkey m hm]; rfl,
      List.nil_append]
  have hwait : waiting rel₀ (n ++ W) = n ++ waiting rel₀ W := by
    rw [waiting_append, waiting, List.filter_eq_self.mpr fun m hm => by rw [hkey m hm]; rfl]
  have hflag : ∀ l : List Slot, flagged ((ist, flag) :: l) = flagged [(ist, flag)] ++ flagged l :=
    fun l => flagged_append [(ist, flag)] l
  refine ⟨?_, hready ▸ h.tracks, fun hp => ?_, ?_, ?_, ?_, h.total⟩
  · have := h.eq
    rw [List.length_append, List.length_singleton] at this
    simp only [matchSlots, hf, Bool.false_eq_true, if_false, this]
  · rw [hready]; simpa using h.reserved hp
  · rw [hwait, hflag slots']; exact List.rel_append hn h.held
  · have := h.slotCount
    rw [hflag slots, hflag slots', List.length_append, List.length_append]
    push_cast
    omega
  · have := h.counts
    rw [hflag slots, hflag slots', List.length_append, List.length_append]
    omega

/-- A slot that is flagged is no base's. -/
theorem keepsBases_taken {done slots : List Slot} {ist : IfcInstance} (i : IfcInstance) :
    KeepsBases (done ++ (ist, true) :: slots) (done ++ (i, false) :: slots) := by
  intro j i₀ hj
  refine ⟨i₀, ?_, rfl, rfl, rfl⟩
  rcases lt_trichotomy j done.length with hlt | rfl | hgt
  · rwa [List.getElem?_append_left hlt] at hj ⊢
  · rw [List.getElem?_append_right le_rfl] at hj
    simp at hj
  · rw [List.getElem?_append_right hgt.le] at hj ⊢
    obtain ⟨d, hd⟩ := Nat.exists_eq_succ_of_ne_zero (Nat.sub_ne_zero_of_lt hgt)
    rw [hd] at hj ⊢
    exact hj

/-- Matching the instance in the slot after `done`, and noting it when it is a new base. -/
theorem match_slot {prog : Program} {done slots : List Slot} {w : Work} {T : Table Label Int}
    (ht : Tracks w T) {ist : IfcInstance}
    (hres : prog = .compressor → Reserved (done ++ (ist, true) :: slots) w.mSet.index T.bases)
    {key : Key Label} (hk : IsKey key) (htype : ist.type = key.1.type)
    (hcont : ist.content = contentOf key) :
    ∃ w' ist', (if (matchInstance ist w).2 then moveBase prog done.length ist (matchInstance ist w).1
        else ((matchInstance ist w).1, ist)) = (w', ist') ∧
      Tracks w' (T.intern ist.id key) ∧
      (prog = .compressor →
        Reserved (done ++ (ist', false) :: slots) w'.mSet.index (T.intern ist.id key).bases) ∧
      w'.umSet = w.umSet ∧ w'.newInc + w'.deleteCount = w.newInc + w.deleteCount + 1 ∧
      w'.totalCount = w.totalCount := by
  obtain ⟨ht', hnew⟩ := ht.matchInstance ist hk htype hcont
  obtain ⟨hum, hidx, htot, hcnt⟩ := matchInstance_frame ist w
  generalize matchInstance ist w = r at *
  obtain ⟨w₁, isNew⟩ := r
  simp only at ht' hnew hum hidx htot hcnt ⊢
  cases isNew with
  | false =>
      have hb : (T.intern ist.id key).bases = T.bases :=
        if_pos (by by_contra hmem; exact absurd (hnew.mpr hmem) Bool.false_ne_true)
      refine ⟨w₁, ist, rfl, ht', fun hp => ?_, hum, hcnt, htot⟩
      rw [hb, hidx]
      exact (hres hp).keep (keepsBases_taken ist)
  | true =>
      have hb : (T.intern ist.id key).bases = T.bases ++ [key] := if_neg (hnew.mp rfl)
      cases prog with
      | compressor =>
          refine ⟨_, _, rfl, ⟨ht'.newInc, ht'.rel, ht'.keys, ht'.number⟩, fun hp => ?_, hum, hcnt,
            htot⟩
          rw [hb]
          simp only [hidx]
          refine ((hres hp).keep (keepsBases_taken { ist with id := w₁.newInc })).push
            { ist with id := w₁.newInc } ?_ ?_ htype hcont
          · rw [List.getElem?_append_right le_rfl]; simp
          · simp only [ht'.newInc, hb]; simp
      | ana =>
          exact ⟨_, _, rfl, ⟨ht'.newInc, ht'.rel, ht'.keys, ht'.number⟩, nofun, hum, hcnt, htot⟩

/-- A slot the loop matches: its key is known. -/
theorem Matches.intern {prog : Program} {rel₀ : Int → Option ℕ} {done slots slots' : List Slot}
    {W : List (Node Label Int)} {w w₁ w' : Work} {T : Table Label Int} {ist ist₁ : IfcInstance}
    {n : Node Label Int} {key : Key Label}
    (h : Matches prog rel₀ (done ++ [(ist₁, false)]) slots W
      { w₁ with umSet := { w₁.umSet with totalCount := w₁.umSet.totalCount - 1 } }
      (T.intern ist.id key) w' slots')
    (hflag : ist.flag = true) (hid : n.id = ist.id) (hkey : n.key rel₀ = some key)
    (he : (if (matchInstance ist w).2 then moveBase prog done.length ist (matchInstance ist w).1
      else ((matchInstance ist w).1, ist)) = (w₁, ist₁))
    (hum : w₁.umSet = w.umSet) (hcnt : w₁.newInc + w₁.deleteCount = w.newInc + w.deleteCount + 1)
    (htot : w₁.totalCount = w.totalCount) :
    Matches prog rel₀ done ((ist, true) :: slots) (n :: W) w T w' ((ist₁, false) :: slots') := by
  have hready : T.internAll (ready rel₀ (n :: W)) =
      (T.intern ist.id key).internAll (ready rel₀ W) := by
    simp [ready, hkey, Table.internAll, hid]
  have hwait : waiting rel₀ (n :: W) = waiting rel₀ W := by simp [waiting, hkey]
  refine ⟨?_, hready ▸ h.tracks, fun hp => ?_, ?_, ?_, ?_, h.total.trans htot⟩
  · have hrest := h.eq
    rw [List.length_append, List.length_singleton] at hrest
    simp only [matchSlots, Bool.true_and, hflag, if_true, he, hrest]
  · rw [hready]
    simpa using h.reserved hp
  · rw [hwait, flagged_cons_false]
    exact h.held
  · have hslots := h.slotCount
    rw [flagged_cons_true, flagged_cons_false, List.length_cons]
    simp only [hum] at hslots
    push_cast
    omega
  · have hcounts := h.counts
    rw [flagged_cons_true, flagged_cons_false, List.length_cons]
    simp only at hcounts
    omega

/-- The first loop of a pass. -/
theorem matchSlots_spec {prog : Program} {rel₀ : Int → Option ℕ} {slots : List Slot} :
    ∀ (done : List Slot) {W : List (Node Label Int)} {w : Work} {T : Table Label Int},
      Tracks w T → List.Forall₂ (Held rel₀) (flagged slots) W →
      (prog = .compressor → Reserved (done ++ slots) w.mSet.index T.bases) →
      ∃ w' slots', Matches prog rel₀ done slots W w T w' slots' := by
  induction slots with
  | nil =>
      intro done W w T ht hW hres
      obtain rfl : W = [] := by cases hW; rfl
      exact ⟨w, [], rfl, ht, hres, .nil, rfl, rfl, rfl⟩
  | cons s slots ih =>
      intro done W w T ht hW hres
      obtain ⟨ist, flag⟩ := s
      cases flag with
      | false =>
          rw [flagged_cons_false] at hW
          obtain ⟨w', slots', h⟩ :=
            ih (done ++ [(ist, false)]) ht hW fun hp => by simpa using hres hp
          exact ⟨w', _, h.skip (n := []) rfl .nil (by simp)⟩
      | true =>
          rw [flagged_cons_true] at hW
          cases hW with
          | @cons _ n _ W hheld hW =>
              obtain ⟨ts, hts, hn, hk⟩ := id hheld
              cases hkey : n.key rel₀ with
              | none =>
                  rw [hkey] at hk
                  obtain ⟨w', slots', h⟩ :=
                    ih (done ++ [(ist, true)]) ht hW fun hp => by simpa using hres hp
                  exact ⟨w', _, h.skip (n := [n]) (by simp [hk.1]) (.cons hheld .nil)
                    (by simpa using hkey)⟩
              -- the key is looked up, and the slot becomes a base or is deleted
              | some key =>
                  rw [hkey] at hk
                  obtain ⟨hflag, hcont⟩ := hk
                  have hid : n.id = ist.id := by rw [hn]; rfl
                  have htype : ist.type = key.1.type := by rw [(key_eq_some.mp hkey).1, hn]; rfl
                  obtain ⟨w₁, ist₁, he, ht₁, hres₁, hum, hcnt, htot⟩ :=
                    match_slot ht hres (isKey_nodeOf hts (hn ▸ hkey)) htype hcont
                  obtain ⟨w', slots', h⟩ := ih (done ++ [(ist₁, false)])
                    (w := { w₁ with umSet := { w₁.umSet with
                      totalCount := w₁.umSet.totalCount - 1 } }) (T := T.intern ist.id key)
                    ⟨ht₁.newInc, ht₁.rel, ht₁.keys, ht₁.number⟩ hW
                    fun hp => by simpa using hres₁ hp
                  exact ⟨w', _, h.intern hflag hid hkey he hum hcnt htot⟩

/-- **A round of Step 2** is one pass. -/
theorem Sim.pass {prog : Program} {ns : List (Node Label Int)} {k : ℕ} {w : Work}
    (h : Sim prog ns k w) : ∃ w', pass prog w = .ok w' ∧ Sim prog ns (k + 1) w' := by
  obtain ⟨w₁, slots₁, hm⟩ :=
    matchSlots_spec [] h.tracks h.held fun hp => by simpa using h.reserved hp
  obtain ⟨slots₂, hs, -, hheld, hkeep⟩ := rewriteSlots_spec w₁.mSet.idBaseID
    (fun s => s.2) hm.held (fun n hn => (mem_waiting.mp hn).2) (fun _ _ hf => hf)
    fun s _ hf hf' => absurd hf' (by simp [hf])
  have heq := hm.eq
  have hflag := flagged_length_of_held hheld hm.held.length_eq
  rw [List.length_nil] at heq
  refine ⟨{ w₁ with umSet := { w₁.umSet with slots := slots₂ } }, ?_, ?_⟩
  · rw [Compression.pass, heq]
    simp only [bind, Except.bind, hs]
    rfl
  · have hsc := h.slotCount
    have hct := h.counts
    have hsc' := hm.slotCount
    have hct' := hm.counts
    refine ⟨?_, fun hp => ?_, ?_, ?_, ?_, hm.total.trans h.total⟩
    · rw [after_succ]
      exact ⟨hm.tracks.newInc, hm.tracks.rel, hm.tracks.keys, hm.tracks.number⟩
    · rw [after_succ]
      exact (hm.reserved hp).keep hkeep
    · rw [after_succ]
      show List.Forall₂ (Held (Table.internAll _ _).rel) _ _
      rw [← hm.tracks.rel]
      exact hheld
    · simp only [hflag]; omega
    · simp only [hflag]; rw [hm.total]; omega

/-! ### The loop -/

/-- The loop of Step 2 ends when nothing waits. -/
theorem Sim.totalCount_eq_zero {prog : Program} {ns : List (Node Label Int)} {k : ℕ} {w : Work}
    (h : Sim prog ns k w) : w.umSet.totalCount = 0 ↔ (after ns k).2 = [] := by
  rw [h.slotCount_waiting, Int.natCast_eq_zero, List.length_eq_zero_iff]

/-- `m` rounds of Step 2. -/
def rounds (prog : Program) : ℕ → Work → Except Fault Work
  | 0, w => .ok w
  | m + 1, w =>
    match pass prog w with
    | .error e => .error e
    | .ok w => rounds prog m w

/-- **Rounds of Step 2 are passes.** -/
theorem Sim.rounds {prog : Program} {ns : List (Node Label Int)} {m : ℕ} : ∀ {k : ℕ} {w : Work},
    Sim prog ns k w → ∃ w', Compression.rounds prog m w = .ok w' ∧ Sim prog ns (k + m) w' := by
  induction m with
  | zero => intro k w h; exact ⟨w, rfl, h⟩
  | succ m ih =>
      intro k w h
      obtain ⟨w₁, hp, h₁⟩ := h.pass
      obtain ⟨w₂, hr, h₂⟩ := ih h₁
      refine ⟨w₂, by rw [Compression.rounds, hp]; exact hr, ?_⟩
      rwa [Nat.add_right_comm] at h₂

/-- Step 1 and `m` rounds of Step 2 are `1 + m` passes. -/
theorem Reads.sim_of_rounds {prog : Program} {ns : List (Node Label Int)} {m : ℕ}
    {w₀ w₁ w : Work} (h : Reads prog ns w₀) (he : Compression.endStep1 w₀ = .ok w₁)
    (hrounds : Compression.rounds prog m w₁ = .ok w) : Sim prog ns (1 + m) w := by
  obtain ⟨w₁', he', hsim⟩ := h.endStep1
  obtain rfl := Except.ok.inj (he'.symm.trans he)
  obtain ⟨w', hrounds', hsim'⟩ := hsim.rounds (m := m)
  obtain rfl := Except.ok.inj (hrounds'.symm.trans hrounds)
  exact hsim'

/-- The loop ends after the first number of rounds that leaves nothing waiting. -/
theorem Sim.resolveLoop_ends {prog : Program} {ns : List (Node Label Int)} {m : ℕ} :
    ∀ {k : ℕ} {w : Work}, Sim prog ns k w → (after ns (k + m)).2 = [] →
      (∀ j < m, (after ns (k + j)).2 ≠ []) → ∃ w', Compression.rounds prog m w = .ok w' ∧
        Sim prog ns (k + m) w' ∧ ∀ fuel, resolveLoop prog (m + 1 + fuel) w = some (.ok w') := by
  induction m with
  | zero =>
      intro k w h hend _
      refine ⟨w, rfl, h, fun fuel => ?_⟩
      rw [show 0 + 1 + fuel = fuel + 1 by omega, resolveLoop, if_pos (h.totalCount_eq_zero.mpr hend)]
  | succ m ih =>
      intro k w h hend hne
      obtain ⟨w₁, hp, h₁⟩ := h.pass
      obtain ⟨w₂, hr, h₂, hloop⟩ := ih h₁ (by rwa [Nat.add_right_comm])
        fun j hj => by
          rw [Nat.add_assoc, Nat.add_comm 1 j]
          exact hne (j + 1) (by omega)
      refine ⟨w₂, by rw [Compression.rounds, hp]; exact hr, ?_, fun fuel => ?_⟩
      · rwa [Nat.add_right_comm] at h₂
      · have : w.umSet.totalCount ≠ 0 := fun e => hne 0 (by omega) (h.totalCount_eq_zero.mp e)
        rw [show m + 1 + 1 + fuel = (m + 1 + fuel) + 1 by omega, resolveLoop, if_neg this, hp]
        exact hloop fuel

/-- The loop never ends while something waits. -/
theorem Sim.resolveLoop_never {prog : Program} {ns : List (Node Label Int)}
    (hne : ∀ k, (after ns k).2 ≠ []) (fuel : ℕ) : ∀ {k : ℕ} {w : Work}, Sim prog ns k w →
      resolveLoop prog fuel w = none := by
  induction fuel with
  | zero => intros; rfl
  | succ fuel ih =>
      intro k w h
      obtain ⟨w₁, hp, h₁⟩ := h.pass
      rw [resolveLoop, if_neg fun e => hne k (h.totalCount_eq_zero.mp e), hp]
      exact ih h₁

/-- A loop that ends has left nothing waiting. -/
theorem Sim.resolveLoop_ok {prog : Program} {ns : List (Node Label Int)} {fuel : ℕ} :
    ∀ {k : ℕ} {w : Work} {r}, Sim prog ns k w → resolveLoop prog fuel w = some r →
      ∃ m w', r = .ok w' ∧ Sim prog ns (k + m) w' ∧ (after ns (k + m)).2 = [] := by
  induction fuel with
  | zero => intro k w r _ h; cases h
  | succ fuel ih =>
      intro k w r hs h
      rw [resolveLoop] at h
      split at h
      · rename_i hz
        cases h
        exact ⟨0, w, rfl, hs, hs.totalCount_eq_zero.mp hz⟩
      · obtain ⟨w₁, hp, h₁⟩ := hs.pass
        rw [hp] at h
        obtain ⟨m, w', hr, hs', hend⟩ := ih h₁ h
        refine ⟨m + 1, w', hr, ?_, ?_⟩
        · rwa [Nat.add_right_comm] at hs'
        · rwa [Nat.add_right_comm] at hend

/-! ### What is written -/

/-- The bases from number `n + 1` on, as instances. -/
def basesFrom : ℕ → List (Key Label) → List IfcInstance
  | _, [] => []
  | n, key :: B => ⟨(n + 1 : ℕ), key.1.type, contentOf key, true⟩ :: basesFrom (n + 1) B

/-- Base `k` of a list that is numbered from `n`. -/
theorem basesFrom_getElem? {B : List (Key Label)} : ∀ {n k : ℕ}, (basesFrom n B)[k]? =
    (B[k]?).map fun key => ⟨(n + k + 1 : ℕ), key.1.type, contentOf key, true⟩ := by
  induction B with
  | nil => intro n k; simp [basesFrom]
  | cons key B ih =>
      intro n k
      cases k with
      | zero => simp [basesFrom]
      | succ k =>
          simp only [basesFrom, List.getElem?_cons_succ, ih]
          rw [Nat.add_right_comm n 1 k, Nat.add_assoc n k 1]

/-- **What the index picks** is the bases, in order, under their numbers. -/
theorem Reserved.reserved {slots : List Slot} {index : List ℕ} {bases : List (Key Label)}
    (h : Reserved slots index bases) : ∃ ists, reserved slots index = .ok ists ∧
      ists.map (fun i => { i with flag := true }) = basesFrom 0 bases := by
  -- places inside of the slots are picked one by one
  have pick : ∀ l : List ℕ, (∀ j ∈ l, slots[j]? ≠ none) →
      ∃ ists, Compression.reserved slots l = .ok ists ∧ ists.length = l.length ∧
        ∀ (k : ℕ) (j : ℕ), l[k]? = some j → ists[k]? = (slots[j]?).map (·.1) := by
    intro l
    induction l with
    | nil => intro _; exact ⟨[], rfl, rfl, by simp⟩
    | cons j l ih =>
        intro hl
        obtain ⟨s, hs⟩ := Option.ne_none_iff_exists'.mp (hl j (by simp))
        obtain ⟨ists, hi, hlen, hk⟩ := ih fun j' hj' => hl j' (by simp [hj'])
        refine ⟨s.1 :: ists, by rw [Compression.reserved, hs]; simp only [hi]; rfl,
          by simp [hlen], fun k j' hj' => ?_⟩
        cases k with
        | zero =>
            obtain rfl : j = j' := by simpa using hj'
            simp [hs]
        | succ k => simpa using hk k j' (by simpa using hj')
  obtain ⟨ists, hi, hlen, hk⟩ := pick index fun j hj => by
    obtain ⟨k, hk⟩ := List.mem_iff_getElem?.mp hj
    have hlt : k < bases.length := h.length ▸ (List.getElem?_eq_some_iff.mp hk).1
    obtain ⟨j', ist, hj', hs, -⟩ := h.slot k _ (List.getElem?_eq_getElem hlt)
    rw [hj'] at hk
    cases hk
    simp [hs]
  refine ⟨ists, hi, List.ext_getElem? fun k => ?_⟩
  rw [basesFrom_getElem?, List.getElem?_map]
  cases hb : bases[k]? with
  | none =>
      have hn : ists[k]? = none := by
        rw [List.getElem?_eq_none_iff] at hb ⊢
        rw [hlen, h.length]
        exact hb
      rw [hn]; rfl
  | some key =>
      obtain ⟨j, ist, hj, hs, hid, ht, hc⟩ := h.slot k key hb
      rw [hk k j hj, hs]
      obtain ⟨id, type, content, flag⟩ := ist
      simp only at hid ht hc
      simp [hid, ht, hc]

end VulcanDB.Compression
