import VulcanDB.Compression.Shape

/-!
# Compression — Analysis

`IfcCompressorAna` reports what `IfcCompressor` does.  It writes the line of a base to
`baseInstance` when the base is found, where the compressor numbers it in its slot and writes it
at the end (`Emitted`); both number the bases by the same passes.

* `emitted_steps`: the lines of a run, under the numbers that `type_content` has for them.
* `analysis_agrees`: the counts and the lines are those of the compressor.
-/

namespace VulcanDB.Compression

open Cxx HashCons

/-- A base as `IfcCompressorAna` writes it. -/
def baseLine (k : ℕ) (type content : Str) : Str :=
  (IfcInstance.mk k type content true).text ++ ['\n']

/-- There is a line for each number given out, that of the instance it was given to. -/
structure Emitted (w : Work) : Prop where
  length : w.mSet.baseInstance.length = w.newInc
  line : ∀ type content k, w.mSet.number type content = some k →
    ∃ j, k = j + 1 ∧ w.mSet.baseInstance[j]? = some (baseLine k type content)

/-- Nothing is written before the first instance. -/
theorem emitted_start : Emitted Work.start where
  length := rfl
  line type content k h := by
    simp [MatchSet.number, Work.start] at h

/-- The other counters and the slots do not matter. -/
theorem Emitted.of_eq {w w' : Work} (h : Emitted w)
    (hb : w'.mSet.baseInstance = w.mSet.baseInstance)
    (ht : w'.mSet.typeContent = w.mSet.typeContent) (hn : w'.newInc = w.newInc) : Emitted w' := by
  refine ⟨by rw [hb, hn]; exact h.length, fun type content k hk => ?_⟩
  rw [hb]
  refine h.line type content k ?_
  rwa [MatchSet.number, ht] at hk

/-- Matching an instance, and writing it when it is a new base. -/
theorem Emitted.matchInstance {w : Work} (h : Emitted w) (ist : IfcInstance) :
    Emitted (if (matchInstance ist w).2 then (matchInstance ist w).1.emit ist
      else (matchInstance ist w).1) := by
  rcases matchInstance_cases ist w with ⟨hnone, tc, htc, he⟩ | ⟨baseID, -, he⟩
  · rw [he]
    simp only [if_true, Work.emit]
    refine ⟨by simp [h.length], fun type content k hk => ?_⟩
    have hnum := (htc type content).symm.trans hk
    by_cases hnew : type = ist.type ∧ content = ist.content
    · obtain ⟨rfl, rfl⟩ := hnew
      rw [if_pos ⟨rfl, rfl⟩, Option.some.injEq] at hnum
      refine ⟨w.newInc, hnum.symm, ?_⟩
      rw [← hnum, ← h.length, List.getElem?_append_right le_rfl]
      simp [baseLine, IfcInstance.text, h.length]
    · rw [if_neg hnew] at hnum
      obtain ⟨j, hj, hline⟩ := h.line type content k hnum
      refine ⟨j, hj, ?_⟩
      rwa [List.getElem?_append_left (List.getElem?_eq_some_iff.mp hline).1]
  · rw [he]
    exact h.of_eq rfl rfl rfl

/-- **Step 1 keeps `Emitted`.** -/
theorem emitted_addInstance {mode : Mode} {line : Str} {w w' : Work} (h : Emitted w)
    (hadd : addInstance .ana mode line w = .ok w') : Emitted w' := by
  rw [addInstance] at hadd
  cases hread : ifcInstanceAna mode line with
  | error e =>
      simp only [bind, Except.bind, hread] at hadd
      cases hadd
  | ok r =>
      simp only [bind, Except.bind, hread] at hadd
      split at hadd
      · have h₁ : Emitted { w with totalCount := w.totalCount + 1 } := h.of_eq rfl rfl rfl
        have h₂ := h₁.matchInstance ⟨r.1, r.2.1, r.2.2.1, r.2.2.2.isEmpty⟩
        cases hadd
        exact h₂
      · cases hadd
        exact h.of_eq rfl rfl rfl

theorem emitted_matchSlots {slots : List Slot} : ∀ {i : ℕ} {w : Work}, Emitted w →
    Emitted (matchSlots .ana i slots w).1 := by
  induction slots with
  | nil => exact fun h => h
  | cons s slots ih =>
      intro i w h
      obtain ⟨ist, flag⟩ := s
      rw [matchSlots]
      split
      · refine ih (Emitted.of_eq (h.matchInstance ist) ?_ ?_ ?_) <;>
          cases (Compression.matchInstance ist w).2 <;> rfl
      · exact ih h

theorem emitted_pass {w w' : Work} (h : Emitted w) (hp : pass .ana w = .ok w') : Emitted w' := by
  have hm : Emitted (matchSlots .ana 0 w.umSet.slots w).1 := emitted_matchSlots h
  rw [pass] at hp
  cases hs : rewriteSlots (matchSlots .ana 0 w.umSet.slots w).1.mSet.idBaseID (fun s => s.2)
      (matchSlots .ana 0 w.umSet.slots w).2 with
  | error e =>
      simp only [bind, Except.bind, hs] at hp
      cases hp
  | ok slots =>
      simp only [bind, Except.bind, hs] at hp
      cases hp
      exact hm.of_eq rfl rfl rfl

/-- **Step 2 keeps it**, by induction on the passes. -/
theorem emitted_resolveLoop {fuel : ℕ} : ∀ {w w' : Work}, Emitted w →
    resolveLoop .ana fuel w = some (.ok w') → Emitted w' := by
  induction fuel with
  | zero => intro w w' _ hr; cases hr
  | succ fuel ih =>
      intro w w' h hr
      rw [resolveLoop] at hr
      split at hr
      · cases hr
        exact h
      · cases hp : pass .ana w with
        | error e => rw [hp] at hr; cases hr
        | ok w₁ =>
            rw [hp] at hr
            exact ih (emitted_pass h hp) hr

/-! ### The DATA loop keeps what an instance keeps -/

section Kept

variable {σ : Type} {add : Str → σ → Except Fault σ} {P : σ → Prop}
  (hadd : ∀ l s s', add l s = .ok s' → P s → P s')

include hadd

theorem dataLoop_keeps {fuel : ℕ} : ∀ {is is' : IStream} {line : Str} {p : Pending} {s s' : σ},
    dataLoop add fuel is line p s = some (.ok (is', s')) → P s → P s' := by
  induction fuel with
  | zero => intro is is' line p s s' h; cases h
  | succ fuel ih =>
      intro is is' line p s s' h hs
      rw [dataLoop] at h
      split at h
      · cases h
        exact hs
      · cases hr : readLine add line p s with
        | error e => rw [hr] at h; cases h
        | ok r =>
            obtain ⟨line₁, p₁, s₁⟩ := r
            rw [hr] at h
            refine ih h ?_
            obtain ⟨-, c, -, hc⟩ := readLine_ok hr
            cases c with
            | false => cases hc; exact hs
            | true => exact hadd line₁ s s₁ hc hs

theorem reading_keeps {head : HeadLoop} {fuel : ℕ} {text : Str} {s : σ} {r : Str × IStream × σ}
    (h : reading add head fuel text s = some (.ok r)) (hs : P s) : P r.2.2 := by
  unfold reading at h
  split at h
  · cases h
  · obtain ⟨r', hd, hr⟩ := Option.map_eq_some_iff.mp h
    cases r' with
    | error e => cases hr
    | ok r' =>
        cases hr
        exact dataLoop_keeps hadd hd hs

end Kept

/-- **The lines of a run** of `IfcCompressorAna`. -/
theorem emitted_steps {mode : Mode} {head : HeadLoop} {fuel : ℕ} {text ifcHead : Str}
    {is : IStream} {w : Work} (h : steps .ana mode head fuel text = some (.ok (ifcHead, is, w))) :
    Emitted w := by
  unfold steps at h
  split at h
  · cases h
  · cases h
  · rename_i ifcHead' is' w₀ hr
    have h₀ : Emitted w₀ :=
      reading_keeps (fun l s s' ha hs => emitted_addInstance hs ha) hr emitted_start
    split at h
    · cases h
    · rename_i w₁ he
      have h₁ : Emitted w₁ := by
        rw [endStep1] at he
        cases hs : rewriteSlots w₀.mSet.idBaseID (fun _ => true) w₀.umSet.slots with
        | error e =>
            simp only [bind, Except.bind, hs] at he
            cases he
        | ok slots =>
            simp only [bind, Except.bind, hs] at he
            cases he
            exact h₀.of_eq rfl rfl rfl
      obtain ⟨r, hloop, hmap⟩ := Option.map_eq_some_iff.mp h
      cases r with
      | error e => cases hmap
      | ok w₂ =>
          cases hmap
          exact emitted_resolveLoop h₁ hloop

/-- With the table of the passes, the lines are its bases in order. -/
theorem Emitted.bases {w : Work} (h : Emitted w) {T : Table Label Int} (ht : Tracks w T)
    (hw : T.WF) : w.mSet.baseInstance = (basesFrom 0 T.bases).map (·.text ++ ['\n']) := by
  refine List.ext_getElem? fun k => ?_
  rw [List.getElem?_map, basesFrom_getElem?, Option.map_map]
  cases hk : T.bases[k]? with
  | none =>
      rw [Option.map_none, List.getElem?_eq_none_iff, h.length, ht.newInc]
      exact List.getElem?_eq_none_iff.mp hk
  | some key =>
      have hmem := List.mem_of_getElem? hk
      have hnum := ht.number key (ht.keys key hmem)
      have hidx : T.number key = k + 1 := by
        rw [Table.number]
        obtain ⟨hlt, rfl⟩ := List.getElem?_eq_some_iff.mp hk
        rw [hw.nodup.idxOf_getElem]
      rw [if_pos hmem, hidx] at hnum
      obtain ⟨j, hj, hline⟩ := h.line _ _ _ hnum
      obtain rfl : k = j := Nat.succ_injective hj
      rw [hline]
      simp [baseLine]

/-- **Main result.**  When both programs end, `IfcCompressorAna` reports the counts of the
compressor, and its `baseInstance` has, in order, exactly the lines of the instances that the
compressor writes between the header and `ENDSEC;`. -/
theorem analysis_agrees {mode : Mode} {head : HeadLoop} {fuel fuel' : ℕ} {text : Str}
    {out : Output} {w : Work} (h : ifcCompressor mode head fuel text = some (.ok out))
    (h' : ifcCompressorAna mode fuel' text = some (.ok w)) :
    w.totalCount = out.work.totalCount ∧ w.deleteCount = out.work.deleteCount ∧
      ∃ ists tail, reserved out.work.umSet.slots out.work.mSet.index = .ok ists ∧
        w.mSet.baseInstance = ists.map (·.text ++ ['\n']) ∧
        out.text = headText text ++ w.mSet.baseInstance.flatten ++
          terminated '\n' (ENDSEC :: tail) := by
  obtain ⟨a, k, tail, ists, hhas, -, -, hsim, hend, -, hres, hists, -, htext⟩ :=
    ifcCompressor_ok h
  obtain ⟨r, hs, hr⟩ := Option.map_eq_some_iff.mp h'
  cases r with
  | error e => cases hr
  | ok r =>
      obtain ⟨ifcHead, is, w'⟩ := r
      cases hr
      obtain ⟨a', more, k', hhas', -, -, hsim', hend', -⟩ := steps_ok hs
      obtain ⟨rfl, -⟩ := hhas.unique (hhas'.of_forGetline head)
      -- from the first pass that leaves nothing waiting on, the passes change nothing
      have hafter : after (nodes mode a) k' = after (nodes mode a) k := by
        rcases le_total k k' with hk | hk
        · exact after_stable hend hk
        · exact (after_stable hend' hk).symm
      have htotal : w'.totalCount = out.work.totalCount := by rw [hsim'.total, hsim.total]
      have hnew : w'.newInc = out.work.newInc := by
        rw [hsim'.tracks.newInc, hsim.tracks.newInc, hafter]
      have hbases : w'.mSet.baseInstance = ists.map (·.text ++ ['\n']) := by
        rw [(emitted_steps hs).bases hsim'.tracks (after_wf _ _), hafter, ← hists, List.map_map]
        rfl
      refine ⟨htotal, ?_, ists, tail, hres, hbases, ?_⟩
      · have hcounts := hsim.counts
        have hcounts' := hsim'.counts
        rw [flagged_of_end hsim hend] at hcounts
        rw [flagged_of_end hsim' hend'] at hcounts'
        show w'.deleteCount = out.work.deleteCount
        omega
      · show out.text = _ ++ w'.mSet.baseInstance.flatten ++ _
        rw [htext, hbases, terminated, List.flatMap_def, List.map_map]
        rfl

/-- On two references to be resolved, over two instances that are one. -/
theorem analysis_agrees_merged : ∃ out w,
    ifcCompressor ⟨false, 2, binary64⟩ .whileGetline 9 mergedText = some (.ok out) ∧
      ifcCompressorAna ⟨false, 2, binary64⟩ 9 mergedText = some (.ok w) ∧
      w.deleteCount = out.work.deleteCount := by
  obtain ⟨out, h⟩ := exists_output
    (r := ifcCompressor ⟨false, 2, binary64⟩ .whileGetline 9 mergedText) (by decide +kernel)
  have hana : (ifcCompressorAna ⟨false, 2, binary64⟩ 9 mergedText).any (·.isOk) = true := by
    decide +kernel
  rcases h' : ifcCompressorAna ⟨false, 2, binary64⟩ 9 mergedText with _ | _ | w
  · rw [h'] at hana
    cases hana
  · rw [h'] at hana
    cases hana
  · exact ⟨out, w, h, rfl, (analysis_agrees h h').2.1⟩

end VulcanDB.Compression
