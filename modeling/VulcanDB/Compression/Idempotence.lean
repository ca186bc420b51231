import VulcanDB.Compression.Shape

/-!
# Compression — Idempotence

A written file, compressed again, is written as it is.  Its instances are the bases of the first
run, read as nodes, so the second run numbers them as the first one did
(`HashCons.toNodes_idempotent`); the header and the end are copied line by line.

* `dataLines_written`, `headText_written`: the sections of a written file.
* `nodes_written`: its instances, as nodes.
* `ifcCompressor_idempotent`: the second run.
-/

namespace VulcanDB.Compression

open Cxx HashCons

/-! ### Reading a written file -/

section File

variable {text : Str} {ists : List IfcInstance} {tail : List Str}

/-- The lines of a written file. -/
theorem getlines_written (hi : ∀ i ∈ ists, Whole i.text) (ht : ∀ l ∈ tail, '\n' ∉ l) :
    getlines '\n' (headText text ++ terminated '\n' (ists.map (·.text)) ++
      terminated '\n' (ENDSEC :: tail)) =
      (getlines '\n' text).takeWhile (· ≠ DATA) ++
        DATA :: (ists.map (·.text) ++ ENDSEC :: tail) := by
  have hhead : ∀ l ∈ (getlines '\n' text).takeWhile (· ≠ DATA), '\n' ∉ l := fun l hl =>
    notMem_of_mem_getlines ((List.takeWhile_sublist _).mem hl)
  have e : headText text ++ terminated '\n' (ists.map (·.text)) ++
      terminated '\n' (ENDSEC :: tail) =
      terminated '\n' ((getlines '\n' text).takeWhile (· ≠ DATA) ++
        DATA :: (ists.map (·.text) ++ ENDSEC :: tail)) := by
    simp [headText, terminated]
  rw [e, getlines_terminated]
  intro l hl
  simp only [List.mem_append, List.mem_cons, List.mem_map] at hl
  rcases hl with hl | rfl | ⟨i, hi', rfl⟩ | rfl | hl
  · exact hhead l hl
  · decide
  · exact (hi i hi').newline
  · decide
  · exact ht l hl

theorem data_notMem_head : DATA ∉ (getlines '\n' text).takeWhile (· ≠ DATA) := by
  intro h
  have := List.mem_takeWhile_imp h
  simp at this

/-- The header of the output is that of the input. -/
theorem headText_written (hi : ∀ i ∈ ists, Whole i.text) (ht : ∀ l ∈ tail, '\n' ∉ l) :
    headText (headText text ++ terminated '\n' (ists.map (·.text)) ++
      terminated '\n' (ENDSEC :: tail)) = headText text := by
  have hpos : ∀ l ∈ (getlines '\n' text).takeWhile (· ≠ DATA), decide (l ≠ DATA) = true :=
    fun l hl => List.mem_takeWhile_imp (p := fun l => decide (l ≠ DATA)) hl
  conv_lhs => rw [headText]
  rw [getlines_written hi ht, List.takeWhile_append_of_pos hpos,
    List.takeWhile_cons_of_neg (by simp), List.append_nil, ← headText]

/-- The second run sees the lines that the first has written. -/
theorem dataLines_written (head : HeadLoop) (hi : ∀ i ∈ ists, Whole i.text)
    (ht : ∀ l ∈ tail, '\n' ∉ l) :
    dataLines head (headText text ++ terminated '\n' (ists.map (·.text)) ++
      terminated '\n' (ENDSEC :: tail)) = some (ists.map (·.text) ++ ENDSEC :: tail) :=
  dataLines_of_lines head (getlines_written hi ht) data_notMem_head

end File

/-- The instances of a written section are its lines. -/
theorem instances_written {ists : List IfcInstance} (hi : ∀ i ∈ ists, Whole i.text) :
    instances (ists.map (·.text)) = ists.map (·.text) := by
  rw [instances]
  generalize hp : Pending.start = p
  have hpart : p.isPart = false := by rw [← hp]; rfl
  clear hp
  induction ists with
  | nil => rfl
  | cons i ists ih =>
      have hw := hi i (by simp)
      have hsemi : i.text.getLast? = some ';' := by
        rw [IfcInstance.text, List.getLast?_append]
        rfl
      have hscan : scan i.text p = (i.text, p, true) := by
        rw [scan]
        simp only [strip_of_trimmed hw.trimmed, hsemi, hpart]
        rw [if_neg hw.ne_nil, if_neg (by simp), if_neg (by simp)]
      rw [List.map_cons, joined, hscan, if_pos rfl, ih fun j hj => hi j (by simp [hj])]

/-- **The instances of a written file are the bases**, as nodes. -/
theorem nodes_written {precision : Int} {B : List (Key Label)} : ∀ {n : ℕ},
    (∀ key ∈ B, Writable key) → (∀ key ∈ B, ∀ m ∈ key.2, m ≤ INT_MAX) →
    n + B.length ≤ INT_MAX →
    (basesFrom n B).map (fun i => node ⟨false, precision, binary64⟩ i.text) =
      toNodesFrom (fun k : ℕ => (k : Int)) n B := by
  induction B with
  | nil => intros; rfl
  | cons key B ih =>
      intro n hw hm hmax
      rw [List.length_cons] at hmax
      have hk := hw key (by simp)
      have ih := ih (n := n + 1) (fun k h => hw k (by simp [h])) (fun k h => hm k (by simp [h]))
        (by omega)
      rw [basesFrom, List.map_cons, ih, toNodesFrom,
        node_written hk.isKey (hm key (by simp)) hk.paren hk.trimmed (by omega)]

/-! ### The second run -/

section Bases

variable {B : List (Key Label)}

theorem mem_basesFrom {i : IfcInstance} (hi : i ∈ basesFrom 0 B) :
    ∃ key ∈ B, ∃ k : ℕ, i = ⟨k, key.1.type, contentOf key, true⟩ := by
  obtain ⟨j, hj⟩ := List.mem_iff_getElem?.mp hi
  rw [basesFrom_getElem?, Option.map_eq_some_iff] at hj
  obtain ⟨key, hkey, rfl⟩ := hj
  exact ⟨key, List.mem_of_getElem? hkey, _, rfl⟩

theorem basesFrom_length (n : ℕ) : (basesFrom n B).length = B.length := by
  induction B generalizing n with
  | nil => rfl
  | cons key B ih => rw [basesFrom, List.length_cons, ih, List.length_cons]

/-- A base is written on one line. -/
theorem basesFrom_whole (hB : ∀ key ∈ B, Writable key) : ∀ i ∈ basesFrom 0 B, Whole i.text := by
  intro i hi
  obtain ⟨key, hkey, k, rfl⟩ := mem_basesFrom hi
  exact (hB key hkey).whole k true

/-- No written base is the end of the section. -/
theorem endsec_notMem : ENDSEC ∉ (basesFrom 0 B).map (·.text) := by
  intro he
  obtain ⟨i, -, hi⟩ := List.mem_map.mp he
  simp [IfcInstance.text, ENDSEC] at hi

/-- The output is read without an exception. -/
theorem readable_written (hB : ∀ key ∈ B, Writable key) :
    Readable ((basesFrom 0 B).map (·.text)) := by
  have hline := basesFrom_whole hB
  rw [Readable, instances_written hline]
  constructor
  · intro l hl
    obtain ⟨i, hi, rfl⟩ := List.mem_map.mp hl
    exact not_wideBlank_of_trimmed (hline i hi).trimmed
  · intro l hl
    obtain ⟨i, hi, rfl⟩ := List.mem_map.mp hl
    obtain ⟨key, hkey, k, rfl⟩ := mem_basesFrom hi
    have hk := hB key hkey
    exact (tokensOf_written k true hk.paren hk.trimmed (render_norm hk.isKey)).1

/-- The section of a written file stands for the bases. -/
theorem nodes_section {precision : Int} (hB : ∀ key ∈ B, Writable key)
    (hm : ∀ key ∈ B, ∀ m ∈ key.2, m ≤ INT_MAX) (hlen : B.length ≤ INT_MAX) :
    nodes ⟨false, precision, binary64⟩ ((basesFrom 0 B).map (·.text)) =
      toNodes (fun k : ℕ => (k : Int)) B := by
  rw [nodes, instances_written (basesFrom_whole hB), List.map_map]
  exact nodes_written hB hm (by omega)

end Bases

/-- **Compressing a written file writes it again.** -/
theorem ifcCompressor_idempotent {precision : Int} {head : HeadLoop} {fuel : ℕ} {text : Str}
    {out : Output} (h : ifcCompressor ⟨false, precision, binary64⟩ head fuel text = some (.ok out)) :
    ∃ fuel out', ifcCompressor ⟨false, precision, binary64⟩ head fuel out.text = some (.ok out') ∧
      out'.work.deleteCount = 0 ∧ out'.text = out.text := by
  obtain ⟨a, k, tail, ists, -, -, hwhole, hsim, hend, hmax, -, hists, htail, htext⟩ :=
    ifcCompressor_ok h
  set mode : Mode := ⟨false, precision, binary64⟩
  set B := (after (nodes mode a) k).1.bases with hB
  have hwritable : ∀ key ∈ B, Writable key := writable_bases hwhole hsim
  have hlen : B.length ≤ INT_MAX := by
    have hcounts := hsim.counts
    have hnewInc := hsim.tracks.newInc
    rw [← hB] at hnewInc
    omega
  have hcites : ∀ key ∈ B, ∀ m ∈ key.2, m ≤ INT_MAX := fun key hk m hm =>
    (cites_le_length (after_wf (nodes mode a) k) hk hm).2.trans hlen
  have hline := basesFrom_whole hwritable
  rw [texts_of_flags hists] at htext
  have hd : dataLines head out.text = some ((basesFrom 0 B).map (·.text) ++ ENDSEC :: tail) := by
    rw [htext]
    exact dataLines_written head hline htail
  have hnodes : nodes mode ((basesFrom 0 B).map (·.text)) = toNodes (fun k : ℕ => (k : Int)) B :=
    nodes_section hwritable hcites hlen
  have htotal : (instances ((basesFrom 0 B).map (·.text))).length = B.length := by
    rw [instances_written hline, List.length_map, basesFrom_length]
  -- the second run makes the passes of the first
  obtain ⟨hb₂, -, hw₂⟩ := toNodes_idempotent (c := fun k : ℕ => (k : Int)) Nat.cast_injective
    (nodes mode a) k
  rw [← hB, ← hnodes] at hb₂ hw₂
  obtain ⟨fuel', out', k', hrun, hsim', hend', htext'⟩ :=
    HasRead.compressed ⟨endsec_notMem, .inl hd⟩ (readable_written hwritable) hw₂ (htotal ▸ hlen)
  have hbases : (after (nodes mode ((basesFrom 0 B).map (·.text))) k').1.bases = B := by
    rw [← after_stable hend' (le_max_left k' k), after_stable hw₂ (le_max_right k' k), hb₂]
  refine ⟨fuel', out', hrun, ?_, ?_⟩
  · -- as many bases as instances
    have hcounts := hsim'.counts
    have hnewInc := hsim'.tracks.newInc
    rw [flagged_of_end hsim' hend', List.length_nil, Nat.add_zero, hsim'.total, nodes,
      List.length_map, htotal] at hcounts
    rw [hbases] at hnewInc
    omega
  · rw [htext', hbases, htext, headText_written hline htail]

/-- A second run on a text with a merged instance. -/
theorem ifcCompressor_idempotent_merged : ∃ out fuel out',
    ifcCompressor ⟨false, 2, binary64⟩ .whileGetline 9 mergedText = some (.ok out) ∧
      ifcCompressor ⟨false, 2, binary64⟩ .whileGetline fuel out.text = some (.ok out') ∧
      out'.work.deleteCount = 0 ∧ out'.text = out.text := by
  obtain ⟨out, h⟩ := exists_output
    (r := ifcCompressor ⟨false, 2, binary64⟩ .whileGetline 9 mergedText) (by decide +kernel)
  obtain ⟨fuel, out', h'⟩ := ifcCompressor_idempotent h
  exact ⟨out, fuel, out', h, h'⟩

end VulcanDB.Compression
