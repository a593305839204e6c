import DxilSpirv.Cfg.Frames

/-!
# The exits of a loop

`trace_to_parent` collects the blocks that lead to a continue block without passing the header, and
`trace_from_parent` the blocks outside that set which the set branches to. Both are depth-first
walks: what they return is characterised by paths, without the order of the walk.
-/

namespace DxilSpirv

open CFGStructurizer

/-- The block `x` leads to the continue block `b` without passing through the header on the way. -/
def CFGStructurizer.InLoop (c : CFGStructurizer) (header b x : Nat) : Prop :=
  Relation.ReflTransGen (fun x y => x ≠ header ∧ y ∈ c.predEdges x) b x

/-- The block `f` is where a branch leaves the loop of `header` with the continue block `b`. -/
def CFGStructurizer.LoopExit (c : CFGStructurizer) (header b f : Nat) : Prop :=
  Relation.ReflTransGen (fun x y => c.InLoop header b x ∧ y ∈ (c.node x).succ) header f ∧
    ¬ c.InLoop header b f

variable {c : CFGStructurizer} {fuel header continueBlock : Nat}

/-! ## The backtrace -/

/-- The loop of a backtrace over the predecessors keeps what every single backtrace keeps. -/
theorem traceToParent_fold {l traced traced' : List Nat}
    (ih : ∀ t p t', traceToParent c header fuel t p = .ok t' →
      p ∈ t' ∧ (∀ x ∈ t, x ∈ t') ∧
        ∀ x ∈ t', x ∉ t → x ≠ header → ∀ q ∈ c.predEdges x, q ∈ t')
    (h : l.foldlM (traceToParent c header fuel) traced = .ok traced') :
    (∀ p ∈ l, p ∈ traced') ∧ (∀ x ∈ traced, x ∈ traced') ∧
      ∀ x ∈ traced', x ∉ traced → x ≠ header → ∀ q ∈ c.predEdges x, q ∈ traced' := by
  induction l generalizing traced with
  | nil =>
    obtain rfl := Except.ok.inj h
    exact ⟨by simp, fun _ h => h, fun x hx hnew => absurd hx hnew⟩
  | cons p l ihl =>
    rw [List.foldlM_cons, bind_eq_ok] at h
    obtain ⟨t, ht, h⟩ := h
    obtain ⟨hp, hsub, hclosed⟩ := ih traced p t ht
    obtain ⟨hl, hsub', hclosed'⟩ := ihl h
    refine ⟨List.forall_mem_cons.mpr ⟨hsub' p hp, hl⟩, fun x hx => hsub' x (hsub x hx), ?_⟩
    intro x hx hnew hne q hq
    by_cases hxt : x ∈ t
    · exact hsub' q (hclosed x hxt hnew hne q hq)
    · exact hclosed' x hx hxt hne q hq

/-- A backtrace contains the predecessors of all blocks it adds but the header. -/
theorem traceToParent_closed (fuel : Nat) : ∀ (traced : List Nat) (n : Nat) (traced' : List Nat),
    traceToParent c header fuel traced n = .ok traced' →
      n ∈ traced' ∧ (∀ x ∈ traced, x ∈ traced') ∧
        ∀ x ∈ traced', x ∉ traced → x ≠ header → ∀ p ∈ c.predEdges x, p ∈ traced' := by
  induction fuel with
  | zero => exact fun traced n traced' h => nomatch h
  | succ fuel ih =>
    intro traced n traced' h
    simp only [traceToParent] at h
    split at h
    · rename_i hn
      obtain rfl := Except.ok.inj h
      refine ⟨mem_addUnique.mpr (.inr rfl), fun x hx => mem_addUnique.mpr (.inl hx), ?_⟩
      intro x hx hnew hne
      exact absurd ((mem_addUnique.mp hx).resolve_left hnew) (hn ▸ hne)
    · split at h
      · rename_i hn
        obtain rfl := Except.ok.inj h
        exact ⟨hn, fun _ h => h, fun x hx hnew => absurd hx hnew⟩
      · -- the predecessors first, then the back edge
        obtain ⟨t, ht, h⟩ := bind_eq_ok.mp h
        obtain ⟨hpreds, hsub, hclosed⟩ := traceToParent_fold ih ht
        have hn := hsub n (by simp)
        cases hback : (c.node n).predBackEdge with
        | none =>
          rw [hback] at h
          obtain rfl := Except.ok.inj h
          refine ⟨hn, fun x hx => hsub x (List.mem_append_left _ hx), ?_⟩
          intro x hx hnew hne p hp
          by_cases hxn : x = n
          · subst hxn
            rw [predEdges, hback] at hp
            exact hpreds p (by simpa using hp)
          · exact hclosed x hx (by simp [hnew, hxn]) hne p hp
        | some b =>
          rw [hback] at h
          obtain ⟨hb, hsub', hclosed'⟩ := ih t b traced' h
          refine ⟨hsub' n hn, fun x hx => hsub' x (hsub x (List.mem_append_left _ hx)), ?_⟩
          intro x hx hnew hne p hp
          by_cases hxn : x = n
          · subst hxn
            rw [predEdges, hback, Option.toList_some, List.mem_append, List.mem_singleton] at hp
            rcases hp with hp | rfl
            · exact hsub' p (hpreds p hp)
            · exact hb
          · by_cases hxt : x ∈ t
            · exact hsub' p (hclosed x hxt (by simp [hnew, hxn]) hne p hp)
            · exact hclosed' x hx hxt hne p hp

/-- A backtrace adds blocks only that lead to the block it starts from. -/
theorem traceToParent_sound (fuel : Nat) : ∀ (traced : List Nat) (n : Nat) (traced' : List Nat),
    traceToParent c header fuel traced n = .ok traced' →
      ∀ x ∈ traced', x ∈ traced ∨ c.InLoop header n x := by
  induction fuel with
  | zero => exact fun traced n traced' h => nomatch h
  | succ fuel ih =>
    intro traced n traced' h
    simp only [traceToParent] at h
    split at h
    · obtain rfl := Except.ok.inj h
      intro x hx
      rcases mem_addUnique.mp hx with hx | rfl
      · exact .inl hx
      · exact .inr .refl
    · rename_i hne
      split at h
      · obtain rfl := Except.ok.inj h
        exact fun x hx => .inl hx
      · have hstep : ∀ p ∈ c.predEdges n, ∀ t t', (∀ x ∈ t, x ∈ traced ∨ c.InLoop header n x) →
            traceToParent c header fuel t p = .ok t' →
            ∀ x ∈ t', x ∈ traced ∨ c.InLoop header n x := by
          intro p hp t t' ht h x hx
          rcases ih t p t' h x hx with hx | hx
          · exact ht x hx
          · exact .inr (hx.head ⟨hne, hp⟩)
        obtain ⟨t, ht, h⟩ := bind_eq_ok.mp h
        have hpreds : ∀ x ∈ t, x ∈ traced ∨ c.InLoop header n x := by
          refine foldlM_invariant
            (P := fun t : List Nat => ∀ x ∈ t, x ∈ traced ∨ c.InLoop header n x)
            (fun p hp t t' ht h => hstep p (List.mem_append_left _ hp) t t' ht h) ?_ ht
          intro x hx
          rcases List.mem_append.mp hx with hx | hx
          · exact .inl hx
          · obtain rfl := List.mem_singleton.mp hx
            exact .inr .refl
        cases hback : (c.node n).predBackEdge with
        | none =>
          rw [hback] at h
          exact Except.ok.inj h ▸ hpreds
        | some b =>
          rw [hback] at h
          refine hstep b ?_ t traced' hpreds h
          rw [predEdges, hback]
          exact List.mem_append_right _ (List.mem_singleton_self b)

/-- A backtrace from the continue block finds exactly the blocks of the loop. -/
theorem mem_traceToParent {traced : List Nat}
    (h : traceToParent c header fuel [] continueBlock = .ok traced) (x : Nat) :
    x ∈ traced ↔ c.InLoop header continueBlock x := by
  constructor
  · intro hx
    exact (traceToParent_sound fuel [] continueBlock traced h x hx).resolve_left List.not_mem_nil
  · intro hx
    obtain ⟨hmem, -, hclosed⟩ := traceToParent_closed fuel [] continueBlock traced h
    clear h
    induction hx with
    | refl => exact hmem
    | tail _ hstep ih => exact hclosed _ ih List.not_mem_nil hstep.1 _ hstep.2

/-! ## The trace from the header -/

/-- Passing blocks of `traced` only, the block `n` leads to the block `f` outside. -/
def CFGStructurizer.TraceExit (c : CFGStructurizer) (traced : List Nat) (n f : Nat) : Prop :=
  Relation.ReflTransGen (fun x y => x ∈ traced ∧ y ∈ (c.node x).succ) n f ∧ f ∉ traced

/-- A block outside is its own exit. -/
theorem traceExit_outside {traced : List Nat} {n f : Nat} (hn : n ∉ traced) :
    c.TraceExit traced n f ↔ f = n := by
  constructor
  · rintro ⟨hpath, -⟩
    rcases Relation.ReflTransGen.cases_head hpath with rfl | ⟨s, hs, -⟩
    · rfl
    · exact absurd hs.1 hn
  · rintro rfl
    exact ⟨.refl, hn⟩

/-- A block inside has the exits of its successors. -/
theorem traceExit_inside {traced : List Nat} {n f : Nat} (hn : n ∈ traced) :
    c.TraceExit traced n f ↔ ∃ s ∈ (c.node n).succ, c.TraceExit traced s f := by
  constructor
  · rintro ⟨hpath, hf⟩
    rcases Relation.ReflTransGen.cases_head hpath with rfl | ⟨s, hs, hpath⟩
    · exact absurd hn hf
    · exact ⟨s, hs.2, hpath, hf⟩
  · rintro ⟨s, hs, hpath, hf⟩
    exact ⟨hpath.head ⟨hn, hs⟩, hf⟩

/-- Everything behind the blocks traced so far was recorded. -/
def CFGStructurizer.TracedAll (c : CFGStructurizer) (traced : List Nat) (t : LoopMergeTracer) :
    Prop :=
  ∀ x ∈ t.tracedBlocks, ∀ f, c.TraceExit traced x f → f ∈ t.loopExits

/-- A trace records the exits behind the block it starts from and no others. -/
theorem mem_traceFromParent {traced : List Nat} (fuel : Nat) :
    ∀ (t : LoopMergeTracer) (n : Nat) (t' : LoopMergeTracer),
      traceFromParent c traced fuel t n = .ok t' → c.TracedAll traced t →
      c.TracedAll traced t' ∧
        ∀ f, f ∈ t'.loopExits ↔ f ∈ t.loopExits ∨ c.TraceExit traced n f := by
  induction fuel with
  | zero => exact fun t n t' h => nomatch h
  | succ fuel ih =>
    intro t n t' h ht
    simp only [traceFromParent] at h
    split at h
    · rename_i hn
      obtain rfl := Except.ok.inj h
      refine ⟨fun x hx f hf => mem_addUnique.mpr (.inl (ht x hx f hf)), fun f => ?_⟩
      rw [mem_addUnique, traceExit_outside hn]
    · rename_i hn
      -- the successors that are left, from any state in which the others were traced
      have hfold : ∀ (l : List Nat) (t t' : LoopMergeTracer), c.TracedAll traced t →
          l.foldlM (fun t succ =>
            if succ ∈ t.tracedBlocks then .ok t
            else do
              let t ← traceFromParent c traced fuel t succ
              return { t with tracedBlocks := addUnique t.tracedBlocks succ }) t = .ok t' →
          c.TracedAll traced t' ∧
            ∀ f, f ∈ t'.loopExits ↔ f ∈ t.loopExits ∨ ∃ s ∈ l, c.TraceExit traced s f := by
        intro l
        induction l with
        | nil =>
          intro t t' ht h
          obtain rfl := Except.ok.inj h
          exact ⟨ht, by simp⟩
        | cons s l ihl =>
          intro t t' ht h
          rw [List.foldlM_cons, bind_eq_ok] at h
          obtain ⟨t₁, h₁, h⟩ := h
          have hs : c.TracedAll traced t₁ ∧
              ∀ f, f ∈ t₁.loopExits ↔ f ∈ t.loopExits ∨ c.TraceExit traced s f := by
            split at h₁
            · rename_i hmem
              obtain rfl := Except.ok.inj h₁
              exact ⟨ht, fun f => ⟨.inl, fun hf => hf.elim id (ht s hmem f)⟩⟩
            · simp only [bind_eq_ok, pure_eq_ok] at h₁
              obtain ⟨t₂, h₂, h₁⟩ := h₁
              obtain rfl := Except.ok.inj h₁
              obtain ⟨hall, hexits⟩ := ih t s t₂ h₂ ht
              refine ⟨fun x hx f hf => ?_, hexits⟩
              rcases mem_addUnique.mp hx with hx | rfl
              · exact hall x hx f hf
              · exact (hexits f).mpr (.inr hf)
          obtain ⟨hall, hexits⟩ := ihl t₁ t' hs.1 h
          refine ⟨hall, fun f => ?_⟩
          rw [hexits, hs.2, List.exists_mem_cons_iff, or_assoc]
      obtain ⟨hall, hexits⟩ := hfold _ t t' ht h
      refine ⟨hall, fun f => ?_⟩
      rw [hexits, traceExit_inside (not_not.mp hn)]

/-- The exits that are recorded for a loop are the exits of the loop. -/
theorem mem_loopExits {exits : List Nat}
    (h : c.loopExits fuel header continueBlock = .ok exits) (f : Nat) :
    f ∈ exits ↔ c.LoopExit header continueBlock f := by
  simp only [loopExits, bind_eq_ok, pure_eq_ok] at h
  obtain ⟨traced, htraced, t, ht, h⟩ := h
  obtain rfl := Except.ok.inj h
  have hmem := fun x => mem_traceToParent htraced x
  have hexits := (mem_traceFromParent fuel {} header t ht fun x hx => nomatch hx).2 f
  have hstart : f ∉ ({} : LoopMergeTracer).loopExits := List.not_mem_nil
  rw [List.mem_mergeSort, hexits, or_iff_right hstart, TraceExit, LoopExit]
  simp only [hmem]

end DxilSpirv
