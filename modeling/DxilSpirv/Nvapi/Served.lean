import DxilSpirv.Nvapi.Outputs

/-!
# Operations that are served

From a machine that expects no output, a regular operation is emitted once and its outputs replace
what is fetched. An operation that is served is regular, apart from what only analysis sees.
-/

namespace DxilSpirv.Nvapi

variable {env : Env} {c c' : Converter} {d : Nat}

/-- The machine after a doorbell. -/
def Converter.begin (c : Converter) (d : Nat) : Converter :=
  { c with nvapi := { NVAPIState.start c.nvapi.markedUav with doorbell := some d } }

/-- IncrementCounter is a doorbell when no output is expected. -/
theorem emitInstruction_doorbell (h : c.nvapi.numExpectedClockOutputs = 0) :
    emitInstruction env c (.updateCounter d .magic) = .ok (c.begin d) := by
  rw [emitInstruction, if_pos rfl, Converter.notifyDoorbell, if_pos h]
  rfl

/-- IncrementCounter begins a new operation only when no output is expected. -/
theorem numExpectedClockOutputs_of_fresh
    (h : emitInstruction env c (.updateCounter d .magic) = .ok c')
    (hfresh : c'.nvapi = { NVAPIState.start c.nvapi.markedUav with doorbell := some d }) :
    c.nvapi.numExpectedClockOutputs = 0 := by
  by_contra hne
  have hcount : c'.nvapi.numExpectedClockOutputs = 0 := by rw [hfresh]; rfl
  have hdoorbell : c'.nvapi.doorbell = some d := by rw [hfresh]
  rw [emitInstruction, if_pos rfl] at h
  rcases notifyDoorbell_cases h with ⟨hzero, -⟩ | ⟨-, ⟨-, rfl | rfl⟩ | ⟨-, rfl | rfl⟩ | ⟨-, rfl⟩⟩
  · exact hne hzero
  · exact hne hcount
  · cases hdoorbell
  · exact hne hcount
  · exact hne hcount
  · cases hdoorbell

variable {m : Option Handle} {handle : Nat} {c₀ c₁ : Converter} {stores before : List ArgumentStore}
  {op : NVExtnOp} {emission : Emission} {outputs hitObjects : List Nat} {fetches : List Fetch}
  {calls : List Call}

/-- The store to a UAV that is to be marked. -/
theorem run_mark {uav : Nat} {offset mask : Value} {values : Nat → Value}
    (hs : Storing env m d c₀ stores c)
    (hmark : storedArguments stores argumentMarkUavRef = some (.constant 1)) :
    run (emitInstruction env) c ((Body.mark uav offset values mask).events d) =
      .ok { c with nvapi := { c.nvapi.reset with markedUav := some (.resource uav) } } := by
  have hstep : emitInstruction env c
    (.store ⟨.resource uav, .instruction d, offset, values, mask⟩) =
      .ok { c with nvapi := { c.nvapi.reset with markedUav := some (.resource uav) } } := by
    rw [emitInstruction, Converter.emitNvapiBufferStore,
      if_pos ((isDoorbell_iff hs.doorbell).mpr rfl),
      if_neg (by simp), Converter.markUavWrite, if_pos (by rw [hs.inputs, hmark])]
    rfl
  rw [Body.events, run_cons hstep, run_nil]

/-- The output number `k` of what was emitted last. -/
theorem fakeDoorbellOutputs_emit {slot k : Nat} (h : outputs.idxOf slot = k)
    (hmem : slot ∈ outputs) :
    (c.emit emission outputs).nvapi.fakeDoorbellOutputs slot =
      emission.result c.emitted.length k := by
  simp [Converter.emit, hmem, h]

theorem idxOf_range {k n : Nat} (h : k < n) : (List.range n).idxOf k = k := by
  have := (List.nodup_range (n := n)).idxOf_getElem k (by simpa using h)
  simpa using this

/-- What follows the stores of an operation that was emitted at the last one. -/
theorem run_emitted (hcommit : commit env m (storedArguments stores) = .emitted op emission outputs)
    (hs : Storing env m d c₀ before c₁)
    (hdelivered : ∀ fetch ∈ fetches, fetch.isClocked = !op.isAtomic)
    (hwaits : (∃ fetch ∈ fetches, fetch.isClocked) → Throughout env m before (·.isDeferred = false))
    (hlt : ∀ output ∈ fetched 0 fetches, output.2 < outputs.length) :
    ∃ c', run (emitInstruction env)
        (((c₁.withInputs (storedArguments stores)).expecting op).emit emission outputs)
        ((Body.outputs fetches calls).events d) = .ok c' ∧
      c'.emitted = c₁.emitted ++ [emission] ∧
      c'.rewritten = c₁.rewritten ++ (fetched 0 fetches).map (fun output =>
        (some (.instruction output.1), emission.result c₁.emitted.length output.2)) ∧
      c'.nvapi.markedUav = m ∧
      (c'.nvapi.numExpectedClockOutputs = 0 ↔
        fetches.countP Fetch.isClocked = numExpectedClockOutputs op) := by
  obtain ⟨-, -, hslots, hresult⟩ := of_commit_emitted hcommit
  rw [outputSlots] at hslots
  generalize hc : ((c₁.withInputs (storedArguments stores)).expecting op).emit emission outputs = c
  have hdoorbell : c.nvapi.doorbell = some d := by rw [← hc]; exact hs.doorbell
  have hmarked : c.nvapi.markedUav = m := by rw [← hc]; exact hs.markedUav
  have hindex : c.nvapi.clockOutputIndex = 0 := by rw [← hc]; exact hs.index
  have hcount : c.nvapi.numExpectedClockOutputs = numExpectedClockOutputs op := by rw [← hc]; rfl
  have hemitted : c.emitted = c₁.emitted ++ [emission] := by rw [← hc]; rfl
  have hrewritten : c.rewritten = c₁.rewritten := by rw [← hc]; rfl
  have hhandle : c.getNvapiTraceHandle = none := by
    rw [← hc]
    exact getNvapiTraceHandle_of_empty hs.intermediates
  have hdeferred : c.nvapi.deferredOpcode = c₁.nvapi.deferredOpcode := by rw [← hc]; rfl
  rw [Body.events]
  by_cases hatomic : op.isAtomic = true
  · -- The output of an atomic is read.
    rw [if_pos hatomic] at hslots
    have hread : ∀ fetch ∈ fetches, fetch.isClocked = false := fun f hf =>
      by simp [hdelivered f hf, hatomic]
    have hid : c.nvapi.fakeDoorbellOutputs argumentDst0u = some (c₁.emitted.length, 0) := by
      rw [← hc, hslots, ← hresult hatomic]
      exact fakeDoorbellOutputs_emit rfl (by simp)
    obtain ⟨c', hrun, hemitted', hrewritten', hnvapi⟩ := run_read env d hdoorbell hid hread
      (by simpa [hslots] using hlt)
    have hnone : fetches.countP Fetch.isClocked = 0 :=
      List.countP_eq_zero.mpr fun f hf => by simp [hread f hf]
    refine ⟨c', ?_, hemitted'.trans hemitted, ?_, by rw [hnvapi, hmarked], ?_⟩
    · rw [run_append hrun, run_call_none]
      rw [Converter.getNvapiTraceHandle, hnvapi]
      exact hhandle
    · rw [hrewritten', hrewritten]
      congr 1
      refine List.map_congr_left fun output ho => ?_
      have hzero : output.2 = 0 := by
        have := hlt output ho
        rw [hslots, List.length_singleton] at this
        omega
      rw [hzero, hresult hatomic]
    · rw [hnvapi, hcount, hnone, eq_comm]
  · -- All other outputs are clocked out.
    rw [if_neg hatomic] at hslots
    have hclocked : ∀ fetch ∈ fetches, fetch.isClocked = true := fun f hf =>
      by simp [hdelivered f hf, hatomic]
    have hpos : 0 < numExpectedClockOutputs op :=
      Nat.pos_of_ne_zero fun h => hatomic (numExpectedClockOutputs_eq_zero.mp h)
    have hall : fetches.countP Fetch.isClocked = fetches.length :=
      List.countP_eq_length.mpr hclocked
    by_cases hnil : fetches = []
    · subst hnil
      refine ⟨c, ?_, hemitted, ?_, hmarked, ?_⟩
      · exact run_call_none hhandle
      · rw [hrewritten]
        exact (List.append_nil _).symm
      · rw [hcount]
        simp only [List.countP_nil]
        omega
    · obtain ⟨first, hfirst⟩ := List.exists_mem_of_ne_nil fetches hnil
      have hnone : c.nvapi.deferredOpcode = none := by
        rw [hdeferred, hs.deferred]
        exact hwaits ⟨first, hfirst, hclocked first hfirst⟩
      rw [hslots, List.length_range] at hlt
      have hlen := add_length_le (Nat.zero_le _) hlt hclocked
      obtain ⟨c', hrun, hemitted', hrewritten', hmarked', hdeferred', hzero⟩ := run_clocked env d
        hnone (by omega) hclocked (by omega)
      refine ⟨c', ?_, hemitted'.trans hemitted, ?_, hmarked'.trans hmarked, ?_⟩
      · rw [run_append hrun, run_call_none (getNvapiTraceHandle_of_none hdeferred')]
      · rw [hrewritten', hrewritten, hindex]
        congr 1
        refine List.map_congr_left fun output ho => ?_
        have hk := hlt output ho
        rw [← hc, hslots]
        exact congrArg (Prod.mk _)
          (fakeDoorbellOutputs_emit (idxOf_range hk) (List.mem_range.mpr hk))
      · rw [hzero, hindex, hcount, hall]
        simp [hnil]

/-- What follows the stores of an operation that waits for a call. -/
theorem run_deferred (hcommit : commit env m (storedArguments stores) = .deferred op)
    (hs : Storing env m d c₀ before c₁)
    (hhandles : deferredHandles op fetches = some (hitObjects, handle))
    (hcompletion : completion op (storedArguments stores) handle none calls = some emission) :
    ∃ c', run (emitInstruction env)
      (((c₁.withInputs (storedArguments stores)).expecting op).waiting op)
        ((Body.outputs fetches calls).events d) = .ok c' ∧
      c'.emitted = c₁.emitted ++ [emission] ∧
      c'.rewritten = c₁.rewritten ++ hitObjects.map (fun hitObject =>
        (some (.instruction hitObject), emission.result c₁.emitted.length 0)) ∧
      c'.nvapi.markedUav = m ∧ c'.nvapi.numExpectedClockOutputs = 0 ∧
      fetches.countP Fetch.isClocked = numExpectedClockOutputs op := by
  obtain ⟨c₂, hfetch, hemitted, hrewritten, hmarked, hinputs, hop, htrace, hattributes, hobjects⟩ :=
    run_handles env d
      (c := ((c₁.withInputs (storedArguments stores)).expecting op).waiting op) rfl rfl hs.index
      hs.intermediates hhandles
  rw [← show c₂.nvapi.fakeDoorbellInputs = storedArguments stores from hinputs] at hcompletion
  have hcalls := run_call env hop htrace hattributes hcompletion
  refine ⟨_, (run_append hfetch).trans hcalls, ?_, ?_, hmarked.trans hs.markedUav, rfl, ?_⟩
  · rw [hemitted]
    rfl
  · rw [hrewritten, hemitted, hobjects, List.map_map]
    rfl
  · rcases deferredHandles_cases hhandles with ⟨-, htwo, hitObject, rfl, -⟩ | ⟨hinvoke, rfl, -⟩
    · rw [htwo]
      rfl
    · rcases hinvoke with rfl | rfl <;> rfl

variable {o : Operation}

/-- The stores of a regular operation never use a null pointer. -/
theorem Operation.Regular.throughout_ne_nullValue (h : o.Regular env m) :
    Throughout env m o.stores (· ≠ .nullValue) := by
  intro first hfirst
  by_cases hne : first = o.stores
  · subst hne
    have hanswered := h.answered
    have hbody := h.body
    unfold Operation.answer at hanswered
    cases hcase : o.body with
    | mark uav offset values mask =>
      rw [hcase] at hbody
      exact hbody.2
    | outputs fetches calls =>
      rw [hcase] at hanswered
      intro hnull
      simp [hnull] at hanswered
  · exact (h.stores.quiet first hfirst hne).2

/-- Before the last store of a regular operation nothing was emitted. -/
theorem Operation.Regular.before_last {c₀ c₂ : Converter} (h : o.Regular env m)
    (hbegin : c₀.nvapi = { NVAPIState.start m with doorbell := some o.doorbell })
    (hstores : Nvapi.run (emitInstruction env) c₀ (o.stores.map (ArgumentStore.event o.doorbell)) =
      .ok c₂)
    (hop : opcode (storedArguments o.stores) = some op) :
    ∃ before last c₁, o.stores = before ++ [last] ∧ Storing env m o.doorbell c₀ before c₁ ∧
      (c₁.withInputs (storedArguments o.stores)).committed
        (commit env m (storedArguments o.stores)) = .ok c₂ ∧ c₁.emitted = c₀.emitted := by
  obtain ⟨before, last, c₁, hsplit, hbefore, hcommitted⟩ :=
    exists_before_last hbegin hstores (ne_nil_of_opcode hop)
  have hquiet : Throughout env m before (·.isEmitted = false) := throughout_iff_before_last.mpr
    fun first hfirst hne => (h.stores.quiet first (hsplit ▸ hfirst) (hsplit ▸ hne)).1
  obtain ⟨l, hl, hempty⟩ := hbefore.emitted
  rw [hempty.mpr hquiet, List.append_nil] at hl
  exact ⟨before, last, c₁, hsplit, hbefore, hcommitted, hl⟩

/-- A regular operation is handled by a machine that expects no output. -/
theorem Operation.Regular.run (h : o.Regular env m) (hidle : c.nvapi.numExpectedClockOutputs = 0)
    (hm : c.nvapi.markedUav = m) :
    ∃ answer c', o.answer env m = some answer ∧ run (emitInstruction env) c o.events = .ok c' ∧
      c'.emitted = c.emitted ++ answer.emitted ∧
      c'.rewritten = c.rewritten ++ answer.rewrites c.emitted.length ∧
      c'.nvapi.markedUav = answer.markedUav ∧ answer.markedUav = o.marks m ∧
      (c'.nvapi.numExpectedClockOutputs = 0 ↔ o.Drained) := by
  obtain ⟨answer, hanswer⟩ := Option.isSome_iff_exists.mp h.answered
  have hbegin : (c.begin o.doorbell).nvapi =
      { NVAPIState.start m with doorbell := some o.doorbell } := by
    rw [Converter.begin, hm]
  obtain ⟨c₂, hstores, hs⟩ := exists_run_stores hbegin h.stores.inRange h.throughout_ne_nullValue
  have hrun : Nvapi.run (emitInstruction env) c o.events =
      Nvapi.run (emitInstruction env) c₂ (o.body.events o.doorbell) := by
    rw [Operation.events, run_cons (emitInstruction_doorbell hidle), run_append hstores]
  have hbody := h.body
  have hanswer' := hanswer
  unfold Operation.answer at hanswer'
  refine ⟨answer, ?_⟩
  rw [hrun]
  unfold Operation.Drained Operation.marks
  cases hcase : o.body with
  | mark uav offset values mask =>
    rw [hcase] at hbody hanswer'
    simp only at hbody hanswer' ⊢
    split_ifs at hanswer' with hmark
    obtain rfl := Option.some.inj hanswer'
    have hquiet : Throughout env m o.stores (·.isEmitted = false) := by
      intro first hfirst
      by_cases hne : first = o.stores
      · exact hne ▸ hbody.1
      · exact (h.stores.quiet first hfirst hne).1
    obtain ⟨l, hl, hempty⟩ := hs.emitted
    rw [hempty.mpr hquiet] at hl
    exact ⟨_, hanswer, run_mark hs hmark, hl, hs.rewritten.trans (List.append_nil _).symm, rfl, rfl,
      iff_of_true rfl trivial⟩
  | outputs fetches calls =>
    rw [hcase] at hbody hanswer'
    simp only at hbody hanswer' ⊢
    cases hcommit : commit env m (storedArguments o.stores) with
    | emitted op emission outputs =>
      rw [hcommit] at hanswer'
      simp only at hanswer'
      split_ifs at hanswer' with hlt
      obtain rfl := Option.some.inj hanswer'
      obtain ⟨hop, hdeferred, -⟩ := of_commit_emitted hcommit
      obtain ⟨before, last, c₁, hsplit, hbefore, hcommitted, hl⟩ :=
        h.before_last hbegin hstores hop
      rw [hcommit] at hcommitted
      obtain rfl := Except.ok.inj hcommitted
      have hfetches := hbody op hop
      obtain ⟨c', hrun', hemitted, hrewritten, hmarked, hzero⟩ := run_emitted hcommit hbefore
        hfetches.delivered
        (fun hclocked => throughout_iff_before_last.mpr fun first hfirst hne =>
          hfetches.waits hdeferred hclocked first (hsplit ▸ hfirst) (hsplit ▸ hne))
        (by simpa using hlt)
      refine ⟨c', hanswer, hrun', hemitted.trans (by rw [hl]; rfl), ?_, hmarked, rfl, ?_⟩
      · rw [hrewritten, hl, hbefore.rewritten]
        rfl
      · rw [hzero, hop]
        simp
    | deferred op =>
      rw [hcommit] at hanswer'
      simp only at hanswer'
      obtain ⟨hop, -⟩ := of_commit_deferred hcommit
      obtain ⟨before, last, c₁, hsplit, hbefore, hcommitted, hl⟩ :=
        h.before_last hbegin hstores hop
      rw [hcommit] at hcommitted
      obtain rfl := Except.ok.inj hcommitted
      cases hhandles : deferredHandles op fetches with
      | none => simp [hhandles] at hanswer'
      | some handles =>
        obtain ⟨hitObjects, handle⟩ := handles
        rw [hhandles] at hanswer'
        obtain ⟨emission, hcompletion, rfl⟩ := Option.map_eq_some_iff.mp hanswer'
        obtain ⟨c', hrun', hemitted, hrewritten, hmarked, hzero, hcount⟩ :=
          run_deferred hcommit hbefore hhandles hcompletion
        refine ⟨c', hanswer, hrun', hemitted.trans (by rw [hl]; rfl), ?_, hmarked, rfl, ?_⟩
        · rw [hrewritten, hl, hbefore.rewritten, Answer.rewrites, List.map_map]
          rfl
        · rw [hop]
          simp [hzero, hcount]
    | incomplete => simp [hcommit] at hanswer'
    | refused op => simp [hcommit] at hanswer'
    | nullValue => simp [hcommit] at hanswer'

variable {event : Event} {events : List Event}

/-- What a machine returns is an error of its own, never a clean failure. -/
theorem map_snd_ne_failed {result : Except Abort (Bool × Converter)} (h : result ≠ .error .failed) :
    result.map Prod.snd ≠ .error .failed := by
  cases result with
  | error abort => simpa [Except.map] using h
  | ok value => simp [Except.map]

theorem complete_ne_failed {hitObjects : List (Option Value)} {outcome : Outcome} :
    c.complete hitObjects outcome ≠ .error .failed := by
  cases outcome <;> simp [Converter.complete]

theorem writeInput_ne_failed {values : Nat → Value} {mask slot i : Nat} {inputs : Arguments} :
    writeInput values mask slot inputs i ≠ .error .failed := by
  unfold writeInput
  split_ifs <;> simp

theorem writeInputs_ne_failed {values : Nat → Value} {mask slot : Nat} {inputs : Arguments} :
    writeInputs values mask slot inputs ≠ .error .failed := by
  intro h
  unfold writeInputs at h
  split at h
  · next heq => exact writeInput_ne_failed (heq.trans h)
  split at h
  · next heq => exact writeInput_ne_failed (heq.trans h)
  split at h
  · next heq => exact writeInput_ne_failed (heq.trans h)
  exact writeInput_ne_failed h

theorem committed_ne_failed {k : Commit} : c.committed k ≠ .error .failed := by
  cases k <;> simp [Converter.committed]

theorem writeArgumentsFromStore_ne_failed {store : Store} :
    c.writeArgumentsFromStore env store false ≠ .error .failed := by
  intro h
  unfold Converter.writeArgumentsFromStore at h
  split at h
  · split_ifs at h
    split at h
    · next heq =>
      obtain rfl := Except.error.inj h
      exact writeInputs_ne_failed heq
    · split at h
      · next heq =>
        obtain rfl := Except.error.inj h
        rw [commitArguments_emission] at heq
        exact committed_ne_failed heq
      · cases h
  · cases h

theorem notifyDoorbell_ne_failed {instruction : Nat} :
    c.notifyDoorbell instruction false ≠ .error .failed := by
  intro h
  unfold Converter.notifyDoorbell at h
  split_ifs at h with hzero hindex
  · split at h
    · next abort heq =>
      unfold Converter.clockOutput at heq
      split at heq
      · by_cases hcount : c.nvapi.clockOutputIndex < intermediateCount
        · simp [hcount] at heq
        · simp only [hcount, if_false] at heq
          rw [← heq] at h
          cases h
      · cases heq
    · split_ifs at h
  · simp only at h
    split_ifs at h

/-- No instruction makes emission fail cleanly: whatever is wrong with an operation, the machine
lets it pass. -/
theorem emitInstruction_ne_failed : emitInstruction env c event ≠ .error .failed := by
  cases event with
  | updateCounter instruction handle =>
    rw [emitInstruction]
    split_ifs
    · exact notifyDoorbell_ne_failed
    · simp
  | store store =>
    refine map_snd_ne_failed ?_
    unfold Converter.emitNvapiBufferStore
    split_ifs
    · exact writeArgumentsFromStore_ne_failed
    · simp
    · simp
  | load load => simp [emitInstruction]
  | call call =>
    cases hop : c.nvapi.deferredOpcode with
    | none =>
      rw [emitInstruction_call_none (getNvapiTraceHandle_of_none hop)]
      simp
    | some op =>
      rw [emitInstruction_call hop]
      split_ifs
      · unfold Converter.called
        split
        · simp
        · simp
        · exact map_snd_ne_failed complete_ne_failed
      · simp

theorem run_ne_failed : run (emitInstruction env) c events ≠ .error .failed := by
  induction events generalizing c with
  | nil => simp
  | cons event events ih =>
    rw [run]
    split
    · next heq =>
      intro h
      exact emitInstruction_ne_failed (heq.trans h)
    · exact ih

variable {answer : Answer} {c₂ c₃ : Converter} {op : NVExtnOp} {emission : Emission}
  {outputs : List Nat} {fetches : List Fetch} {calls : List Call}

/-- A pass over an operation, from a machine that expects no output, that does what the answer
says: `c₂` is the machine after the stores. -/
structure RanTo (env : Env) (m : Option Handle) (c : Converter) (o : Operation) (answer : Answer)
    (c₂ c' : Converter) : Prop where
  marked : c.nvapi.markedUav = m
  stores : run (emitInstruction env) (c.begin o.doorbell)
    (o.stores.map (ArgumentStore.event o.doorbell)) = .ok c₂
  body : run (emitInstruction env) c₂ (o.body.events o.doorbell) = .ok c'
  emitted : c'.emitted = c.emitted ++ answer.emitted
  rewritten : c'.rewritten = c.rewritten ++ answer.rewrites c.emitted.length

/-- An operation that is served is answered, and the pass over it does what the answer says. -/
theorem Served.ranTo (h : Served env c o) (hm : c.nvapi.markedUav = m) :
    ∃ answer c₂ c', o.answer env m = some answer ∧ RanTo env m c o answer c₂ c' := by
  obtain ⟨answer, hanswer⟩ : ∃ answer, o.answer env m = some answer := by
    rw [← hm, ← Option.ne_none_iff_exists']
    exact fun hnone => run_ne_failed (h.fails hnone)
  obtain ⟨c', hrun, hemitted, hrewritten, -⟩ := h.answered answer (hm ▸ hanswer)
  obtain ⟨c₁, hfirst, hfresh⟩ := h.fresh
  have hidle := numExpectedClockOutputs_of_fresh hfirst hfresh
  rw [Operation.events, run_cons (emitInstruction_doorbell hidle), run_append_eq_ok] at hrun
  obtain ⟨c₂, hstores, hbody⟩ := hrun
  exact ⟨answer, c₂, c', hanswer, hm, hstores, hbody, hemitted, hrewritten⟩

namespace RanTo

/-- The doorbell starts the machine anew. -/
theorem begun (h : RanTo env m c o answer c₂ c') : (c.begin o.doorbell).nvapi =
    { NVAPIState.start m with doorbell := some o.doorbell } := by
  rw [Converter.begin, h.marked]

/-- The stores are regular when nothing can be emitted before the last one. -/
theorem regularStores (h : RanTo env m c o answer c₂ c')
    (hquiet : ∀ first, first <+: o.stores → first ≠ o.stores →
      (commit env m (storedArguments first)).isEmitted = false)
    (hunmarked : ∀ first, first <+: o.stores → first ≠ o.stores →
      storedArguments first argumentMarkUavRef ≠ some (.constant 1)) :
    RegularStores env m o.stores := by
  obtain ⟨hrange, hnull, -⟩ := storing_of_run h.begun h.stores
  exact ⟨hrange, fun first hfirst hne => ⟨hquiet first hfirst hne, hnull first hfirst⟩, hunmarked⟩

/-- The machine before the last store of an operation with an opcode. -/
theorem before_last (h : RanTo env m c o answer c₂ c')
    (hop : opcode (storedArguments o.stores) = some op) :
    ∃ before last c₁, o.stores = before ++ [last] ∧
      Storing env m o.doorbell (c.begin o.doorbell) before c₁ ∧
      (c₁.withInputs (storedArguments o.stores)).committed
        (commit env m (storedArguments o.stores)) = .ok c₂ :=
  exists_before_last h.begun h.stores (ne_nil_of_opcode hop)

/-- Nothing is emitted when a UAV is marked. -/
theorem quiet_of_mark (h : RanTo env m c o answer c₂ c') {uav : Nat} {offset mask : Value}
    {values : Nat → Value} (hcase : o.body = .mark uav offset values mask)
    (hmark : storedArguments o.stores argumentMarkUavRef = some (.constant 1))
    (hnone : answer.emitted = []) : Throughout env m o.stores (·.isEmitted = false) := by
  obtain ⟨-, -, hs⟩ := storing_of_run h.begun h.stores
  have hbody := h.body
  rw [hcase, run_mark hs hmark] at hbody
  obtain rfl := Except.ok.inj hbody
  obtain ⟨l, hl, hempty⟩ := hs.emitted
  have hsame : c.emitted ++ l = c.emitted ++ [] := hl.symm.trans (hnone ▸ h.emitted)
  exact hempty.mp (List.append_cancel_left hsame)

end RanTo

/-- When each fetch replaced a value and only those of a kind can have, all are of that kind. -/
theorem forall_of_countP_le {p : Fetch → Bool} {n : Nat}
    (hall : n + fetches.length ≤ c₃.rewritten.length)
    (hle : c₃.rewritten.length ≤ n + fetches.countP p) : ∀ fetch ∈ fetches, p fetch = true := by
  have hmost := List.countP_le_length (p := p) (l := fetches)
  exact List.countP_eq_length.mp (by omega)

/-- When all that is emitted is what the last store completes, nothing was emitted before, and the
fetches replace all the values that are replaced. -/
theorem emits_once (hbefore : Storing env m d c₀ before c₁)
    (hcommitted : (c₁.withInputs (storedArguments stores)).committed
      (.emitted op emission outputs) = .ok c₂)
    (hbody : run (emitInstruction env) c₂ ((Body.outputs fetches calls).events d) = .ok c')
    (hemitted : c'.emitted = c₀.emitted ++ [emission])
    (hrewritten : c'.rewritten.length = c₀.rewritten.length + fetches.length) :
    Throughout env m before (·.isEmitted = false) ∧
      ∃ c₃, run (emitInstruction env) c₂ (fetches.map (Fetch.event d)) = .ok c₃ ∧
        c₂.rewritten.length + fetches.length ≤ c₃.rewritten.length := by
  obtain ⟨l, hl, hempty⟩ := hbefore.emitted
  have hemitted₂ := committed_emitted hcommitted
  have hrewritten₂ : c₂.rewritten.length = c₀.rewritten.length := by
    rw [(committed_frame hcommitted).2.2.2.2.2]
    exact congrArg List.length hbefore.rewritten
  rw [Body.events, run_append_eq_ok] at hbody
  obtain ⟨c₃, hfetch, hcalls⟩ := hbody
  obtain ⟨n, hn, hle⟩ := run_call_le hcalls
  have hfetched : c₃.emitted = c₂.emitted := by
    refine run_invariant (p := fun c => c.emitted = c₂.emitted) ?_ rfl hfetch
    rintro a event b hevent ha hstep
    obtain ⟨fetch, -, rfl⟩ := List.mem_map.mp hevent
    rw [emitted_fetch hstep, ha]
  have htotal := congrArg List.length hemitted
  rw [hn, hfetched, hemitted₂] at htotal
  change (c₁.emitted ++ [emission]).length + n = _ at htotal
  rw [hl] at htotal
  simp only [List.length_append, List.length_singleton] at htotal
  exact ⟨hempty.mp (List.eq_nil_of_length_eq_zero (by omega)), c₃, hfetch, by omega⟩

/-- Outputs of atomics are read, all others are clocked out: no other fetch replaces a value. -/
theorem delivered_of_run (hbefore : Storing env m d c₀ before c₁)
    (hcommit : commit env m (storedArguments stores) = .emitted op emission outputs)
    (hcommitted : (c₁.withInputs (storedArguments stores)).committed
      (.emitted op emission outputs) = .ok c₂)
    (hlt : ∀ output ∈ fetched 0 fetches, output.2 < outputs.length)
    (hquiet : Throughout env m before (·.isEmitted = false))
    (hfetch : run (emitInstruction env) c₂ (fetches.map (Fetch.event d)) = .ok c₃)
    (hall : c₂.rewritten.length + fetches.length ≤ c₃.rewritten.length) :
    ∀ fetch ∈ fetches, fetch.isClocked = !op.isAtomic := by
  obtain ⟨-, -, hslots, -⟩ := of_commit_emitted hcommit
  by_cases hatomic : op.isAtomic = true
  · have hcount : c₂.nvapi.numExpectedClockOutputs = 0 := by
      obtain rfl := Except.ok.inj hcommitted
      exact numExpectedClockOutputs_eq_zero.mpr hatomic
    have := forall_of_countP_le hall (fetch_without_expected hcount hfetch).2
    simpa [hatomic] using this
  · have hdestination : ∀ slot, argumentDst0u ≤ slot →
        c₂.nvapi.fakeDoorbellOutputs slot = none := by
      intro slot hslot
      obtain rfl := Except.ok.inj hcommitted
      have hnot : slot ∉ outputs := by
        rw [hslots, outputSlots, if_neg hatomic, List.mem_range]
        have := @numExpectedClockOutputs_le op
        unfold argumentDst0u at hslot
        omega
      change (if slot ∈ outputs then _ else c₁.nvapi.fakeDoorbellOutputs slot) = none
      rw [if_neg hnot, hbefore.outputs hquiet]
    have hread : ∀ instruction output, .read instruction output ∈ fetches → output < 8 :=
      fun instruction output hmem => Nat.lt_of_lt_of_le (lt_of_read_mem hlt hmem)
        (hslots ▸ length_outputSlots_le)
    have := forall_of_countP_le hall (fetch_without_destination hread hdestination hfetch).2
    simpa [hatomic] using this

/-- While an opcode waits for a call, nothing that is clocked out replaces a value. -/
theorem not_waiting_of_run (hbefore : Storing env m d c₀ before c₁)
    (hcommitted : (c₁.withInputs (storedArguments stores)).committed
      (.emitted op emission outputs) = .ok c₂)
    (hfetch : run (emitInstruction env) c₂ (fetches.map (Fetch.event d)) = .ok c₃)
    (hall : c₂.rewritten.length + fetches.length ≤ c₃.rewritten.length)
    (hdelivered : ∀ fetch ∈ fetches, fetch.isClocked = !op.isAtomic)
    (hclocked : ∃ fetch ∈ fetches, fetch.isClocked) :
    Throughout env m before (·.isDeferred = false) := by
  obtain ⟨fetch, hmem, hclocked⟩ := hclocked
  rw [← hbefore.deferred]
  by_contra hsome
  have hatomic : op.isAtomic = false := by
    have := hdelivered fetch hmem
    rw [hclocked] at this
    simpa using this.symm
  have hop₂ : c₂.nvapi.deferredOpcode ≠ none :=
    fun hnone => hsome ((committed_deferred hcommitted).mp hnone).1
  have hcount : c₂.nvapi.numExpectedClockOutputs ≠ 0 := by
    obtain rfl := Except.ok.inj hcommitted
    intro hzero
    have := numExpectedClockOutputs_eq_zero.mp hzero
    rw [hatomic] at this
    cases this
  have := forall_of_countP_le hall (fetch_while_waiting hop₂ hcount hfetch).2 fetch hmem
  simp [hclocked] at this

namespace RanTo

/-- An operation that is emitted after its last store. -/
theorem regular_of_emitted
    (h : RanTo env m c o ⟨[emission], fetched 0 fetches, m⟩ c₂ c')
    (hcase : o.body = .outputs fetches calls)
    (hcommit : commit env m (storedArguments o.stores) = .emitted op emission outputs)
    (hlt : ∀ output ∈ fetched 0 fetches, output.2 < outputs.length) :
    (∀ first, first <+: o.stores → first ≠ o.stores →
      (commit env m (storedArguments first)).isEmitted = false) ∧
      RegularFetches env m o.stores op fetches := by
  obtain ⟨hop, -⟩ := of_commit_emitted hcommit
  obtain ⟨before, last, c₁, hsplit, hbefore, hcommitted⟩ := h.before_last hop
  rw [hcommit] at hcommitted
  have hbody := h.body
  rw [hcase] at hbody
  have hwhole := congrArg List.length h.rewritten
  rw [Answer.rewrites, List.length_append, List.length_map, length_fetched] at hwhole
  obtain ⟨hquiet, c₃, hfetch, hall⟩ := emits_once hbefore hcommitted hbody h.emitted hwhole
  have hdelivered := delivered_of_run hbefore hcommit hcommitted hlt hquiet hfetch hall
  refine ⟨fun first hfirst hne => throughout_iff_before_last.mp hquiet first
    (hsplit ▸ hfirst) (hsplit ▸ hne), hdelivered, fun _ hclocked first hfirst hne => ?_⟩
  have hwaiting := not_waiting_of_run hbefore hcommitted hfetch hall hdelivered hclocked
  exact throughout_iff_before_last.mp hwaiting first (hsplit ▸ hfirst) (hsplit ▸ hne)

/-- An operation that waits for a call after its last store. -/
theorem regular_of_deferred {hitObjects : List Nat} {handle : Nat}
    (h : RanTo env m c o answer c₂ c') (hcase : o.body = .outputs fetches calls)
    (hcommit : commit env m (storedArguments o.stores) = .deferred op)
    (hhandles : deferredHandles op fetches = some (hitObjects, handle))
    (hcompletion : completion op (storedArguments o.stores) handle none calls = some emission)
    (hanswer : answer.emitted = [emission]) :
    (∀ first, first <+: o.stores → first ≠ o.stores →
      (commit env m (storedArguments first)).isEmitted = false) ∧
      RegularFetches env m o.stores op fetches := by
  obtain ⟨hop, hdeferred⟩ := of_commit_deferred hcommit
  obtain ⟨before, last, c₁, hsplit, hbefore, hcommitted⟩ := h.before_last hop
  rw [hcommit] at hcommitted
  obtain rfl := Except.ok.inj hcommitted
  have hbody := h.body
  rw [hcase] at hbody
  obtain ⟨c₃, hrun, hemitted, -⟩ := run_deferred hcommit hbefore hhandles hcompletion
  obtain rfl := Except.ok.inj (hbody.symm.trans hrun)
  obtain ⟨l, hl, hempty⟩ := hbefore.emitted
  have hnil : l = [] := by
    have htotal := congrArg List.length (h.emitted.symm.trans hemitted)
    rw [hl, hanswer] at htotal
    simp only [List.length_append, List.length_singleton] at htotal
    have hbegun : (c.begin o.doorbell).emitted.length = c.emitted.length := rfl
    exact List.eq_nil_of_length_eq_zero (by omega)
  refine ⟨fun first hfirst hne => throughout_iff_before_last.mp (hempty.mp hnil) first
    (hsplit ▸ hfirst) (hsplit ▸ hne), ?_, fun hnot => by simp [hdeferred] at hnot⟩
  have hatomic : op.isAtomic = false := by
    cases op <;> first | rfl | cases hdeferred
  rcases deferredHandles_cases hhandles with ⟨-, -, hitObject, rfl, -⟩ | ⟨-, rfl, -⟩
  · simp [Fetch.isClocked, hatomic]
  · simp [Fetch.isClocked, hatomic]

end RanTo

/-- An operation that is served is regular, when no UAV is to be marked before its last store. -/
theorem Served.regular (h : Served env c o) (hm : c.nvapi.markedUav = m)
    (hunmarked : ∀ first, first <+: o.stores → first ≠ o.stores →
      storedArguments first argumentMarkUavRef ≠ some (.constant 1)) : o.Regular env m := by
  obtain ⟨answer, c₂, c', hanswer, hran⟩ := h.ranTo hm
  have hsome : (o.answer env m).isSome := by rw [hanswer]; rfl
  have hanswer' := hanswer
  unfold Operation.answer at hanswer'
  cases hcase : o.body with
  | mark uav offset values mask =>
    rw [hcase] at hanswer'
    simp only at hanswer'
    split_ifs at hanswer' with hmark
    obtain rfl := Option.some.inj hanswer'
    have hquiet := hran.quiet_of_mark hcase hmark rfl
    obtain ⟨-, hnull, -⟩ := storing_of_run hran.begun hran.stores
    refine ⟨hran.regularStores (fun first hfirst _ => hquiet first hfirst) hunmarked, hsome, ?_⟩
    rw [hcase]
    exact ⟨hquiet _ List.prefix_rfl, hnull _ List.prefix_rfl⟩
  | outputs fetches calls =>
    rw [hcase] at hanswer'
    simp only at hanswer'
    suffices hregular : ∃ op, opcode (storedArguments o.stores) = some op ∧
        (∀ first, first <+: o.stores → first ≠ o.stores →
          (commit env m (storedArguments first)).isEmitted = false) ∧
          RegularFetches env m o.stores op fetches by
      obtain ⟨op, hop, hquiet, hfetches⟩ := hregular
      refine ⟨hran.regularStores hquiet hunmarked, hsome, ?_⟩
      rw [hcase]
      exact fun op' hop' => Option.some.inj (hop.symm.trans hop') ▸ hfetches
    cases hcommit : commit env m (storedArguments o.stores) with
    | emitted op emission outputs =>
      rw [hcommit] at hanswer'
      simp only at hanswer'
      split_ifs at hanswer' with hlt
      obtain rfl := Option.some.inj hanswer'
      exact ⟨op, (of_commit_emitted hcommit).1,
        hran.regular_of_emitted hcase hcommit (by simpa using hlt)⟩
    | deferred op =>
      rw [hcommit] at hanswer'
      simp only at hanswer'
      cases hhandles : deferredHandles op fetches with
      | none => simp [hhandles] at hanswer'
      | some handles =>
        obtain ⟨hitObjects, handle⟩ := handles
        rw [hhandles] at hanswer'
        obtain ⟨emission, hcompletion, rfl⟩ := Option.map_eq_some_iff.mp hanswer'
        exact ⟨op, (of_commit_deferred hcommit).1,
          hran.regular_of_deferred hcase hcommit hhandles hcompletion rfl⟩
    | incomplete => simp [hcommit] at hanswer'
    | refused op => simp [hcommit] at hanswer'
    | nullValue => simp [hcommit] at hanswer'

end DxilSpirv.Nvapi
