import Mathlib.Tactic.IntervalCases
import DxilSpirv.Convert.ControlFlow

/-!
# When the conversion of a function keeps its control flow

The traversals register exactly the blocks that control can get to. The conversion keeps the control
flow if and only if the switches fit in 32 bits and the PHIs agree with the branches about the edges
that are pruned.
-/

namespace DxilSpirv.Converter

open Graph

variable {width default : Nat} {cases : List (Nat × Nat)}

/-- The label that a node goes to. -/
def nodeLabel (default : Nat) (cases : List (Nat × Nat)) (register : Nat) : Nat :=
  ((cases.find? fun label => (BitVec.ofNat 32 label.1).toNat == register).map (·.2)).getD default

/-- The label that the switch goes to. -/
def blockLabel (default : Nat) (cases : List (Nat × Nat)) (value : Nat) : Nat :=
  ((cases.find? fun label => label.1 == value).map (·.2)).getD default

/-- A search that finds nothing, or the first match. -/
theorem find_cases {α : Type} (p : α → Bool) (l : List α) :
    (l.find? p = none ∧ ∀ a ∈ l, p a = false) ∨
      ∃ before a after, l = before ++ a :: after ∧ l.find? p = some a ∧ p a = true ∧
        ∀ b ∈ before, p b = false := by
  cases h : l.find? p with
  | none =>
    left
    refine ⟨rfl, fun a ha => ?_⟩
    exact Bool.eq_false_iff.mpr (List.find?_eq_none.mp h a ha)
  | some a =>
    right
    obtain ⟨hp, before, after, rfl, hbefore⟩ := List.find?_eq_some_iff_append.mp h
    exact ⟨before, a, after, rfl, rfl, hp, fun b hb => by simpa using hbefore b hb⟩

/-- When the labels are different, a label is found where it stands. -/
theorem blockLabel_of_mem (hnodup : (cases.map (·.1)).Nodup) {label : Nat × Nat}
    (h : label ∈ cases) : blockLabel default cases label.1 = label.2 := by
  rw [blockLabel]
  rcases find_cases (fun l : Nat × Nat => l.1 == label.1) cases with
    ⟨-, hnone⟩ | ⟨before, a, after, hcases, hfind, ha, -⟩
  · exact absurd (hnone label h) (by simp)
  · have hmem : a ∈ cases := by
      rw [hcases]
      exact List.mem_append_right _ (List.mem_cons_self ..)
    rw [hfind, List.inj_on_of_nodup_map hnodup hmem h (by simpa using ha)]
    rfl

/-- Without a label the default is taken. -/
theorem blockLabel_of_notMem {value : Nat} (h : ∀ label ∈ cases, label.1 ≠ value) :
    blockLabel default cases value = default := by
  rw [blockLabel, List.find?_eq_none.mpr]
  · rfl
  · exact fun label hlabel => by simpa using h label hlabel

/-- When all labels go to the default block, every search does. -/
theorem getD_find_of_default (h : ∀ label ∈ cases, label.2 = default) (p : Nat × Nat → Bool) :
    ((cases.find? p).map (·.2)).getD default = default := by
  cases hfind : cases.find? p with
  | none => rfl
  | some label => exact h label (List.mem_of_find?_eq_some hfind)

/-- A case matches a register of 32 bits modulo the width. -/
theorem matches_iff {label : Nat × Nat} {register : Nat} :
    ((BitVec.ofNat 32 label.1).toNat == register) = true ↔ label.1 % 2 ^ 32 = register := by
  rw [BitVec.toNat_ofNat, beq_iff_eq]

/-- The labels of a switch that fits decide as 32-bit numbers. -/
theorem nodeLabel_eq (hfits : SwitchFits width default cases) (hnodup : (cases.map (·.1)).Nodup)
    {register : Nat} (hregister : register < 2 ^ physicalIntegerBitWidth width) :
    nodeLabel default cases register = blockLabel default cases (register % 2 ^ width) := by
  rcases hfits with hall | ⟨hwidth, hwide⟩
  · rw [nodeLabel, blockLabel, getD_find_of_default hall, getD_find_of_default hall]
  rw [hwidth] at hregister
  rw [Nat.mod_eq_of_lt hregister, nodeLabel]
  rcases find_cases (fun l : Nat × Nat => (BitVec.ofNat 32 l.1).toNat == register) cases with
    ⟨hfind, hnone⟩ | ⟨before, a, after, hcases, hfind, ha, hbefore⟩
  · rw [hfind]
    have hnone : ∀ label ∈ cases, label.1 % 2 ^ 32 ≠ register := fun label hlabel heq =>
      absurd (hnone label hlabel) (by rw [matches_iff.mpr heq]; exact Bool.noConfusion)
    by_cases hmem : ∃ label ∈ cases, label.1 = register
    · obtain ⟨label, hlabel, rfl⟩ := hmem
      have hge : 2 ^ 32 ≤ label.1 := by
        have hne := hnone label hlabel
        omega
      obtain ⟨before, after, hcases⟩ := List.append_of_mem hlabel
      rw [blockLabel_of_mem hnodup hlabel, (hwide before label after hcases hge).1]
      rfl
    · rw [blockLabel_of_notMem fun label hlabel heq => hmem ⟨label, hlabel, heq⟩]
      rfl
  · have ha := matches_iff.mp ha
    have hmem : a ∈ cases := by
      rw [hcases]
      exact List.mem_append_right _ (List.mem_cons_self ..)
    have hfound : ((cases.find? fun l => (BitVec.ofNat 32 l.1).toNat == register).map
        (·.2)).getD default = a.2 := by
      rw [hfind]
      rfl
    rw [hfound]
    by_cases hlt : a.1 < 2 ^ 32
    · have heq : a.1 = register := by omega
      rw [← heq, blockLabel_of_mem hnodup hmem]
    · obtain ⟨hdefault, hlater⟩ := hwide before a after hcases (by omega)
      rw [hdefault]
      symm
      by_cases hexact : ∃ label ∈ cases, label.1 = register
      -- The label that is meant comes after the wide one with its low bits.
      · obtain ⟨label, hlabel, heq⟩ := hexact
        have hlow : label.1 % 2 ^ 32 = register := by omega
        have hafter : label ∈ after := by
          rw [hcases] at hlabel
          rcases List.mem_append.mp hlabel with hb | hb
          · have hb := hbefore label hb
            rw [matches_iff.mpr hlow] at hb
            cases hb
          · rcases List.mem_cons.mp hb with rfl | hb
            · omega
            · exact hb
        rw [← heq, blockLabel_of_mem hnodup hlabel]
        exact hlater label hafter (by omega)
      · exact blockLabel_of_notMem fun label hlabel heq => hexact ⟨label, hlabel, heq⟩

/-- Nothing else decides as 32-bit numbers. -/
theorem switchFits_of_nodeLabel (hpos : 0 < width) (hwidth : width ≤ 64)
    (hlt : ∀ label ∈ cases, label.1 < 2 ^ width) (hnodup : (cases.map (·.1)).Nodup)
    (h : ∀ register < 2 ^ physicalIntegerBitWidth width,
      nodeLabel default cases register = blockLabel default cases (register % 2 ^ width)) :
    SwitchFits width default cases := by
  have hnone : ∀ register, (∀ label ∈ cases, label.1 % 2 ^ 32 ≠ register) →
      nodeLabel default cases register = default := by
    intro register hne
    rw [nodeLabel, List.find?_eq_none.mpr]
    · rfl
    · exact fun label hlabel => fun heq => hne label hlabel (matches_iff.mp heq)
  by_cases hphysical : physicalIntegerBitWidth width = width
  · right
    refine ⟨hphysical, ?_⟩
    rw [hphysical] at h
    have hh : ∀ label ∈ cases,
        nodeLabel default cases label.1 = label.2 := by
      intro label hlabel
      rw [h label.1 (hlt label hlabel), Nat.mod_eq_of_lt (hlt label hlabel),
        blockLabel_of_mem hnodup hlabel]
    intro before label after hcases hge
    have hmem : label ∈ cases := by
      rw [hcases]
      exact List.mem_append_right _ (List.mem_cons_self ..)
    have hwide : ∀ l ∈ cases, 2 ^ 32 ≤ l.1 → l.2 = default := by
      intro l hl hge
      rw [← hh l hl, hnone]
      intro l' _ heq
      omega
    refine ⟨hwide label hmem hge, fun later hlater heq => ?_⟩
    have hlmem : later ∈ cases := by
      rw [hcases]
      exact List.mem_append_right _ (List.mem_cons_of_mem label hlater)
    have hlow : ((BitVec.ofNat 32 label.1).toNat == later.1) = true := matches_iff.mpr heq.symm
    -- The first match is the wide label or one before it, not the later one.
    obtain ⟨a, hfind, ha⟩ : ∃ a, cases.find? (fun l => (BitVec.ofNat 32 l.1).toNat == later.1) =
        some a ∧ (a ∈ before ∨ a = label) := by
      rw [hcases, List.find?_append]
      cases hbefore : before.find? fun l => (BitVec.ofNat 32 l.1).toNat == later.1 with
      | some a => exact ⟨a, rfl, .inl (List.mem_of_find?_eq_some hbefore)⟩
      | none =>
        refine ⟨label, ?_, .inr rfl⟩
        rw [List.find?_cons, hlow]
        rfl
    have hamem := List.mem_of_find?_eq_some hfind
    have hamatch : ((BitVec.ofNat 32 a.1).toNat == later.1) = true := by
      have hsome := List.find?_some hfind
      exact hsome
    have hamatch := matches_iff.mp hamatch
    rw [← hh later hlmem, nodeLabel, hfind]
    apply hwide a hamem
    rcases ha with ha | rfl
    · by_contra hlt
      have heq : a.1 = later.1 := by omega
      rw [hcases, List.map_append, List.map_cons, List.nodup_append] at hnodup
      apply hnodup.2.2 a.1 (List.mem_map_of_mem ha) later.1 _ heq
      exact List.mem_cons_of_mem _ (List.mem_map_of_mem hlater)
    · exact hge
  · left
    intro label hlabel
    have hlabellt := hlt label hlabel
    have hwidths : width < 32 ∧ physicalIntegerBitWidth width = 32 ∨
        32 < width ∧ physicalIntegerBitWidth width = 64 ∧ width < 64 := by
      unfold physicalIntegerBitWidth at hphysical ⊢
      split at hphysical
      · exact absurd rfl hphysical
      · rename_i hmem
        simp only [List.mem_cons, List.not_mem_nil, or_false, not_or] at hmem
        rw [if_neg (by simp only [List.mem_cons, List.not_mem_nil, or_false]; omega)]
        split
        · left
          omega
        · right
          omega
    have hsmall : label.1 + 2 ^ width < 2 ^ physicalIntegerBitWidth width := by
      have hstep : 2 ^ (width + 1) ≤ 2 ^ physicalIntegerBitWidth width :=
        Nat.pow_le_pow_right (by omega) (by omega)
      rw [Nat.pow_succ] at hstep
      omega
    have hregister := h (label.1 + 2 ^ width) hsmall
    rw [Nat.add_mod_right, Nat.mod_eq_of_lt hlabellt, blockLabel_of_mem hnodup hlabel] at hregister
    rw [← hregister]
    apply hnone
    intro l hl heq
    have hllt := hlt l hl
    rcases hwidths with ⟨hw, -⟩ | ⟨hw, -⟩
    · have hle : l.1 % 2 ^ 32 ≤ l.1 := Nat.mod_le ..
      omega
    · have hpow : 2 ^ 32 ≤ 2 ^ width := Nat.pow_le_pow_right (by omega) (by omega)
      omega

variable {static : Nat → Option Bool} {F : LlvmFunction}

/-- The traversals follow some of the successors. -/
theorem followed_subset {b x : Nat} (h : x ∈ followed static F b) :
    x ∈ (F.terminator b).succs := by
  unfold followed at h
  cases ht : F.terminator b with
  | condBr c ifTrue ifFalse =>
    rw [ht] at h
    simp only at h
    cases hc : static c with
    | none =>
      rw [hc] at h
      exact h
    | some value =>
      rw [hc] at h
      cases value with
      | true => simpa [LlvmTerminator.succs] using .inl (List.mem_singleton.mp h)
      | false => simpa [LlvmTerminator.succs] using .inr (List.mem_singleton.mp h)
  | br dest => simpa [ht] using h
  | switch width c default cases => simpa [ht] using h
  | ret => simpa [ht] using h
  | unreachable => simpa [ht] using h

/-- The blocks of a well-formed function are closed under its branches. -/
theorem followed_closed (hF : F.WellFormed) :
    ∀ b ∈ Finset.range F.size, ∀ s ∈ followed static F b, s ∈ Finset.range F.size := by
  intro b hb s hs
  rw [Finset.mem_range] at hb ⊢
  exact hF.succ_lt b hb s (followed_subset hs)

/-- The entry is one of the blocks. -/
theorem entry_mem (hF : F.WellFormed) : F.entry ∈ Finset.range F.size :=
  Finset.mem_range.mpr hF.entry_lt

/-- A reached block is one of the blocks. -/
theorem Reached.lt (hF : F.WellFormed) {b : Nat} (h : Reached static F b) : b < F.size :=
  Finset.mem_range.mp (mem_of_reaches (followed_closed hF) (entry_mem hF) h)

/-- The members of a list with others added, none of them twice. -/
theorem mem_foldl_addUnique {x : Nat} {l acc : List Nat} :
    x ∈ l.foldl addUnique acc ↔ x ∈ acc ∨ x ∈ l := by
  induction l generalizing acc with
  | nil => simp
  | cons w l ih => rw [List.foldl_cons, ih, mem_addUnique, List.mem_cons, or_assoc]

/-- Queuing successors registers those that are new. -/
theorem foldl_queueVisitSucc (block : Nat) (l : List Nat) (s : VisitState) :
    l.foldl (queueVisitSucc block) s =
      { s with
        bbMap := s.bbMap ++ fresh s.bbMap l
        toProcess := s.toProcess ++ fresh s.bbMap l
        succ := Function.update s.succ block (l.foldl addUnique (s.succ block)) } := by
  suffices hfold : ∀ (l new : List Nat) (succ : Nat → List Nat),
      l.foldl (queueVisitSucc block)
        { s with bbMap := s.bbMap ++ new, toProcess := s.toProcess ++ new, succ := succ } =
      let new := l.foldl (fun new w => if w ∈ s.bbMap ∨ w ∈ new then new else new ++ [w]) new
      { s with
        bbMap := s.bbMap ++ new
        toProcess := s.toProcess ++ new
        succ := Function.update succ block (l.foldl addUnique (succ block)) } by
    have h := hfold l [] s.succ
    rw [List.append_nil, List.append_nil] at h
    exact h
  intro l
  induction l with
  | nil =>
    intro new succ
    simp only [List.foldl_nil, Function.update_eq_self]
  | cons w l ih =>
    intro new succ
    simp only [List.foldl_cons]
    by_cases hw : w ∈ s.bbMap ∨ w ∈ new
    · have hqueue : queueVisitSucc block
          { s with bbMap := s.bbMap ++ new, toProcess := s.toProcess ++ new, succ := succ } w =
          { s with
            bbMap := s.bbMap ++ new
            toProcess := s.toProcess ++ new
            succ := Function.update succ block (addUnique (succ block) w) } := by
        simp only [queueVisitSucc, List.mem_append, if_pos hw]
      rw [hqueue, ih]
      simp only [if_pos hw, Function.update_self, Function.update_idem]
    · have hqueue : queueVisitSucc block
          { s with bbMap := s.bbMap ++ new, toProcess := s.toProcess ++ new, succ := succ } w =
          { s with
            bbMap := s.bbMap ++ (new ++ [w])
            toProcess := s.toProcess ++ (new ++ [w])
            succ := Function.update succ block (addUnique (succ block) w) } := by
        simp only [queueVisitSucc, List.mem_append, if_neg hw, List.append_assoc]
      rw [hqueue, ih]
      simp only [if_neg hw, Function.update_self, Function.update_idem]

/-- The traversal with some blocks left in `processing`: a breadth-first search in progress. -/
structure Visiting (static : Nat → Option Bool) (F : LlvmFunction) (rest : List Nat)
    (s : VisitState) : Prop where
  bbMap : s.bbMap = s.visitOrder ++ (rest ++ s.toProcess)
  searching : Searching (followed static F) F.entry s.visitOrder (rest ++ s.toProcess)
  succ : ∀ b ∈ s.visitOrder, s.succ b = (followed static F b).foldl addUnique []
  succ_nil : ∀ b ∉ s.visitOrder, s.succ b = []
  order : ∃ fuel, breadthFirst (followed static F) fuel s.bbMap (rest ++ s.toProcess) =
    conversionOrder static F .primary ∧ F.size ≤ fuel + s.visitOrder.length

/-- There are no more blocks to visit than the function has. -/
theorem Visiting.length_le (hF : F.WellFormed) {rest : List Nat} {s : VisitState}
    (h : Visiting static F rest s) :
    s.visitOrder.length + (rest.length + s.toProcess.length) ≤ F.size := by
  have hsubset : (s.visitOrder ++ (rest ++ s.toProcess)).toFinset ⊆ Finset.range F.size := by
    intro b hb
    have hreach : Reached static F b := h.searching.reaches b (List.mem_toFinset.mp hb)
    exact Finset.mem_range.mpr (hreach.lt hF)
  have hcard := Finset.card_le_card hsubset
  rw [List.toFinset_card_of_nodup h.searching.nodup, Finset.card_range, List.length_append,
    List.length_append] at hcard
  exact hcard

/-- Visiting a block is a step of the search. -/
theorem Visiting.visitBlock (hF : F.WellFormed) {b : Nat} {rest : List Nat} {s : VisitState}
    (h : Visiting static F (b :: rest) s) :
    Visiting static F rest (visitBlock static F s b) := by
  have hnotin : b ∉ s.visitOrder := by
    intro hb
    have hnodup := h.searching.nodup
    rw [List.nodup_append] at hnodup
    exact hnodup.2.2 b hb b (List.mem_cons_self ..) rfl
  have hlength := h.length_le hF
  have hsearching := h.searching
  rw [List.cons_append] at hsearching
  have hnext := hsearching.next
  rw [List.append_assoc] at hnext
  rw [Converter.visitBlock, foldl_queueVisitSucc]
  have hmap := h.bbMap
  rw [List.cons_append] at hmap
  constructor
  · simp only [hmap]
    simp
  · simp only [hmap]
    exact hnext
  · intro x hx
    simp only at hx ⊢
    by_cases hxb : x = b
    · rw [hxb, Function.update_self, h.succ_nil b hnotin]
    · rw [Function.update_of_ne hxb]
      apply h.succ
      rcases List.mem_append.mp hx with hx | hx
      · exact hx
      · exact absurd (List.mem_singleton.mp hx) hxb
  · intro x hx
    simp only at hx ⊢
    have hxb : x ≠ b := by
      rintro rfl
      exact hx (List.mem_append_right _ (List.mem_singleton_self x))
    rw [Function.update_of_ne hxb]
    exact h.succ_nil x fun hmem => hx (List.mem_append_left _ hmem)
  · obtain ⟨fuel, horder, hfuel⟩ := h.order
    cases fuel with
    | zero =>
      rw [List.length_cons] at hlength
      omega
    | succ fuel =>
      rw [List.cons_append, breadthFirst, List.append_assoc] at horder
      refine ⟨fuel, horder, ?_⟩
      simp only [List.length_append, List.length_singleton]
      omega

/-- A round visits the blocks that were to process. -/
theorem Visiting.foldl (hF : F.WellFormed) {rest : List Nat} {s : VisitState}
    (h : Visiting static F rest s) :
    Visiting static F [] (rest.foldl (Converter.visitBlock static F) s) ∧
      (rest.foldl (Converter.visitBlock static F) s).visitOrder = s.visitOrder ++ rest := by
  induction rest generalizing s with
  | nil => exact ⟨h, (List.append_nil _).symm⟩
  | cons b rest ih =>
    obtain ⟨hvisiting, horder⟩ := ih (h.visitBlock hF)
    refine ⟨hvisiting, ?_⟩
    rw [List.foldl_cons, horder, Converter.visitBlock, foldl_queueVisitSucc]
    simp

/-- The rounds go on until nothing is left. -/
theorem Visiting.rounds (hF : F.WellFormed) {fuel : Nat} {s : VisitState}
    (h : Visiting static F [] s) (hfuel : F.size ≤ fuel + s.visitOrder.length) :
    Visiting static F [] (visitRounds static F fuel s) ∧
      (visitRounds static F fuel s).toProcess = [] := by
  induction fuel generalizing s with
  | zero =>
    have hlength := h.length_le hF
    exact ⟨h, List.eq_nil_of_length_eq_zero (by rw [visitRounds]; omega)⟩
  | succ fuel ih =>
    rw [visitRounds]
    split
    · rename_i hempty
      exact ⟨h, hempty⟩
    · rename_i hne
      have hprocessing : Visiting static F s.toProcess { s with toProcess := [] } := by
        obtain ⟨hmap, hsearching, hsucc, hnil, horder⟩ := h
        rw [List.nil_append] at hmap hsearching horder
        constructor
        · rw [List.append_nil]
          exact hmap
        · rw [List.append_nil]
          exact hsearching
        · exact hsucc
        · exact hnil
        · rw [List.append_nil]
          exact horder
      obtain ⟨hvisiting, hvisited⟩ := hprocessing.foldl hF
      apply ih hvisiting
      have hpos := List.length_pos_iff.mpr hne
      rw [hvisited, List.length_append]
      simp only
      omega

/-- The traversal of an entry point visits the blocks that control can get to, breadth first, and
adds the branches that it follows. -/
theorem legacy_spec (hF : F.WellFormed) :
    (buildFunctionBbVisitOrderLegacy static F).visitOrder = conversionOrder static F .primary ∧
      ∀ b ∈ conversionOrder static F .primary, ∀ x,
        x ∈ (buildFunctionBbVisitOrderLegacy static F).succ b ↔ x ∈ followed static F b := by
  have hstart : Visiting static F [] ⟨[F.entry], [F.entry], [], fun _ => []⟩ := by
    constructor
    · rfl
    · exact .start _ _
    · exact fun b hb => by cases hb
    · exact fun _ _ => rfl
    · exact ⟨F.size, rfl, Nat.le_refl _⟩
  obtain ⟨hvisiting, hempty⟩ := hstart.rounds hF (Nat.le_refl F.size)
  have horder : (buildFunctionBbVisitOrderLegacy static F).visitOrder =
      conversionOrder static F .primary := by
    obtain ⟨fuel, horder, -⟩ := hvisiting.order
    have hmap := hvisiting.bbMap
    rw [hempty, List.append_nil, List.append_nil] at hmap
    rw [hempty, hmap] at horder
    rw [← horder]
    cases fuel with
    | zero => rfl
    | succ fuel => rfl
  refine ⟨horder, fun b hb x => ?_⟩
  rw [← horder] at hb
  have hsucc := hvisiting.succ b hb
  rw [buildFunctionBbVisitOrderLegacy, hsucc]
  rw [mem_foldl_addUnique]
  simp

/-- Both orders list the blocks that control can get to, each once. -/
theorem conversionOrder_spec (hF : F.WellFormed) (role : FunctionRole) :
    (conversionOrder static F role).Nodup ∧
      ∀ b, b ∈ conversionOrder static F role ↔ Reached static F b := by
  cases role with
  | primary =>
    exact breadthFirst_complete (followed_closed hF) (entry_mem hF) (Finset.card_range F.size).le
  | callee =>
    have hfuel : (Finset.range F.size).card < F.size + 1 := by
      rw [Finset.card_range]
      exact Nat.lt_succ_self F.size
    obtain ⟨hnodup, hmem⟩ := postOrder_complete
      (fun b hb s hs => followed_closed hF b hb s hs) (entry_mem hF) hfuel
    refine ⟨List.nodup_reverse.mpr hnodup, fun b => ?_⟩
    rw [conversionOrder, List.mem_reverse]
    exact hmem b

/-- The case of a node for a label. -/
def labelCase (label : Nat × Nat) : TerminatorCase :=
  { node := label.2, value := BitVec.ofNat 32 label.1 }

/-- The terminator of a node whose blocks all exist. -/
def terminatorOf (static : Nat → Option Bool) : LlvmTerminator → Terminator
  | .br dest => { type := .branch, directBlock := some dest }
  | .condBr c ifTrue ifFalse =>
    match static c with
    | some value => { type := .branch, directBlock := some (if value then ifTrue else ifFalse) }
    | none =>
      { type := .condition
        conditionalId := c
        trueBlock := some ifTrue
        falseBlock := some ifFalse }
  | .switch _ c default cases =>
    { type := .switch
      conditionalId := c
      cases := { node := default, isDefault := true } :: cases.map labelCase }
  | .ret => { type := .ret }
  | .unreachable => { type := .unreachable }

/-- The side of a branch on a known condition that is not taken. -/
def prunedOf (static : Nat → Option Bool) : LlvmTerminator → Option Nat
  | .condBr c ifTrue ifFalse => (static c).map fun value => if value then ifFalse else ifTrue
  | _ => none

/-- A branch is pruned where its condition is static, and it is the other one. -/
theorem prunedOf_eq_some {t : LlvmTerminator} {x : Nat} :
    prunedOf static t = some x ↔ ∃ c ifTrue ifFalse value, t = .condBr c ifTrue ifFalse ∧
      static c = some value ∧ (if value then ifFalse else ifTrue) = x := by
  constructor
  · intro h
    cases t with
    | condBr c ifTrue ifFalse =>
      obtain ⟨value, hvalue, hx⟩ := Option.map_eq_some_iff.mp h
      exact ⟨c, ifTrue, ifFalse, value, rfl, hvalue, hx⟩
    | br dest => cases h
    | switch width c default cases => cases h
    | ret => cases h
    | unreachable => cases h
  · rintro ⟨c, ifTrue, ifFalse, value, rfl, hvalue, hx⟩
    rw [prunedOf, hvalue, Option.map_some, hx]

/-- A visited block has a node. -/
theorem bbMapNode_of_mem {bbMap : List Nat} {b : Nat} (h : b ∈ bbMap) :
    bbMapNode bbMap b = .ok b := if_pos h

/-- A loop whose turns succeed collects their results. -/
theorem mapM_eq_ok {α β ε : Type} {f : α → Except ε β} {g : α → β} {l : List α}
    (h : ∀ a ∈ l, f a = .ok (g a)) : l.mapM f = .ok (l.map g) := by
  induction l with
  | nil => rfl
  | cons a l ih =>
    rw [List.mapM_cons, h a (List.mem_cons_self ..), ih fun b hb => h b (List.mem_cons_of_mem a hb)]
    rfl

/-- A terminator converts when the blocks that the traversal follows exist. -/
theorem convertTerminator_eq {bbMap : List Nat} {b : Nat}
    (h : ∀ x ∈ followed static F b, x ∈ bbMap) :
    convertTerminator static bbMap (F.terminator b) =
      .ok (terminatorOf static (F.terminator b), prunedOf static (F.terminator b)) := by
  unfold followed at h
  cases ht : F.terminator b with
  | br dest =>
    rw [ht] at h
    rw [convertTerminator, bbMapNode_of_mem (h dest (List.mem_singleton_self dest))]
    rfl
  | condBr c ifTrue ifFalse =>
    rw [ht] at h
    simp only at h
    rw [convertTerminator, terminatorOf, prunedOf]
    cases hc : static c with
    | none =>
      rw [hc] at h
      simp only
      rw [bbMapNode_of_mem (h ifTrue (List.mem_cons_self ..)),
        bbMapNode_of_mem (h ifFalse (List.mem_cons_of_mem _ (List.mem_singleton_self _)))]
      rfl
    | some value =>
      rw [hc] at h
      simp only
      rw [bbMapNode_of_mem (h _ (List.mem_singleton_self _))]
      rfl
  | switch width c default cases =>
    rw [ht] at h
    have hcases : (cases.mapM fun label => do
        let node ← bbMapNode bbMap label.2
        return ({ node := node, value := BitVec.ofNat 32 label.1 } : TerminatorCase)) =
        .ok (cases.map labelCase) := by
      apply mapM_eq_ok
      intro label hlabel
      rw [bbMapNode_of_mem (h label.2 (List.mem_cons_of_mem _ (List.mem_map_of_mem hlabel)))]
      rfl
    rw [convertTerminator, bbMapNode_of_mem (h default (List.mem_cons_self ..)), hcases]
    rfl
  | ret => rfl
  | unreachable => rfl

/-- The targets of a terminator are the successors that the traversal follows. -/
theorem mem_targets_terminatorOf {b x : Nat} :
    x ∈ (terminatorOf static (F.terminator b)).targets ↔ x ∈ followed static F b := by
  unfold followed
  cases ht : F.terminator b with
  | condBr c ifTrue ifFalse =>
    simp only [terminatorOf]
    cases static c with
    | none => rfl
    | some value => rfl
  | br dest => rfl
  | switch width c default cases =>
    have hmap : (cases.map labelCase).map (·.node) = cases.map (·.2) := by
      rw [List.map_map]
      rfl
    simp only [terminatorOf, Terminator.targets, List.map_cons, hmap, LlvmTerminator.succs]
  | ret => rfl
  | unreachable => rfl

/-- A switch node goes to the label that its 32-bit case has. -/
theorem nextNode_switch (condition : Nat → Bool) (register : Nat → Nat)
    (width c default : Nat) (cases : List (Nat × Nat)) :
    nextNode condition register (terminatorOf static (.switch width c default cases)) =
      some (nodeLabel default cases (register c)) := by
  have hfind : (cases.map labelCase).find? (fun l => !l.isDefault && l.value.toNat == register c) =
      (cases.find? fun label => (BitVec.ofNat 32 label.1).toNat == register c).map labelCase := by
    rw [List.find?_map]
    rfl
  rw [nextNode, terminatorOf, nodeLabel]
  simp only
  rw [List.find?_cons_of_neg (by simp), hfind, List.find?_cons_of_pos (by simp)]
  cases cases.find? fun label => (BitVec.ofNat 32 label.1).toNat == register c with
  | none => rfl
  | some label => rfl

/-- Control goes the same way from a node whose switch, if it is one, fits. -/
theorem nextNode_eq {t : LlvmTerminator} {condition : Nat → Bool} {register : Nat → Nat}
    (hcondition : ∀ c value, static c = some value → condition c = value)
    (hswitch : ∀ width c default cases, t = .switch width c default cases →
      nodeLabel default cases (register c) =
        blockLabel default cases (register c % 2 ^ width)) :
    nextNode condition register (terminatorOf static t) = t.next condition register := by
  cases t with
  | br dest => rfl
  | condBr c ifTrue ifFalse =>
    rw [terminatorOf, LlvmTerminator.next]
    cases hc : static c with
    | none =>
      simp only [nextNode]
      cases condition c with
      | true => rfl
      | false => rfl
    | some value =>
      rw [hcondition c value hc]
      rfl
  | switch width c default cases =>
    rw [nextNode_switch, hswitch width c default cases rfl]
    rfl
  | ret => rfl
  | unreachable => rfl

variable {bbMap : List Nat}

/-- The incoming values that a PHI ends up with. -/
def keptOf (bbMap : List Nat) (skip : List (Nat × Nat)) (bb : Nat) (phi : PhiNode) :
    List (Nat × Nat) :=
  match phi.incoming with
  | [p] => [p]
  | incoming => phiIncoming (fun b => decide (b ∈ bbMap)) skip bb incoming

/-- The edges that the blocks of a list have pruned. -/
def skipOf (static : Nat → Option Bool) (F : LlvmFunction) (l : List Nat) : List (Nat × Nat) :=
  l.flatMap fun p => (prunedOf static (F.terminator p)).toList.map fun x => (p, x)

/-- The pairs that the conversion skips are the pruned branches of the visited blocks. -/
theorem mem_skipOf {l : List Nat} {p x : Nat} :
    (p, x) ∈ skipOf static F l ↔ p ∈ l ∧ prunedOf static (F.terminator p) = some x := by
  rw [skipOf, List.mem_flatMap]
  constructor
  · rintro ⟨q, hq, hmem⟩
    obtain ⟨y, hy, heq⟩ := List.mem_map.mp hmem
    cases heq
    exact ⟨hq, Option.mem_toList.mp hy⟩
  · rintro ⟨hp, hx⟩
    exact ⟨p, hp, List.mem_map.mpr ⟨x, Option.mem_toList.mpr hx, rfl⟩⟩

/-- A PHI is left with its kept values, of which there must be one. -/
theorem emitPhiIncoming_eq {skip : List (Nat × Nat)} {bb : Nat} {phi : PhiNode} :
    emitPhiIncoming bbMap skip bb phi =
      if keptOf bbMap skip bb phi = [] then .error .phiWithoutIncoming
      else .ok (keptOf bbMap skip bb phi) := by
  unfold emitPhiIncoming keptOf
  cases phi.incoming with
  | nil => rfl
  | cons p l =>
    cases l with
    | nil => rfl
    | cons q l => rfl

/-- A loop that goes through has collected the results of its turns. -/
theorem eq_map_of_mapM {α β ε : Type} {f : α → Except ε β} {g : α → β} {l : List α} {r : List β}
    (hg : ∀ a ∈ l, ∀ b, f a = .ok b → b = g a) (h : l.mapM f = .ok r) : r = l.map g := by
  induction l generalizing r with
  | nil =>
    cases h
    rfl
  | cons a l ih =>
    rw [List.mapM_cons] at h
    cases ha : f a with
    | error e =>
      rw [ha] at h
      cases h
    | ok b =>
      rw [ha] at h
      cases hl : l.mapM f with
      | error e =>
        rw [hl] at h
        cases h
      | ok r' =>
        rw [hl] at h
        cases h
        rw [List.map_cons, hg a (List.mem_cons_self ..) b ha,
          ih (fun x hx => hg x (List.mem_cons_of_mem a hx)) hl]

/-- The state after a block whose PHIs keep some value. -/
def convertedBlock (static : Nat → Option Bool) (F : LlvmFunction) (bbMap : List Nat)
    (s : ConvertState) (bb : Nat) : ConvertState :=
  ⟨s.skipPhiPreds ++ (prunedOf static (F.terminator bb)).toList.map fun x => (bb, x),
    Function.update s.terminator bb (terminatorOf static (F.terminator bb)),
    Function.update s.phi bb ((F.phis bb).map (keptOf bbMap s.skipPhiPreds bb))⟩

/-- A block whose targets are visited and whose PHIs keep a value is converted. -/
theorem convertBlock_ok {s : ConvertState} {bb : Nat}
    (hclosed : ∀ x ∈ followed static F bb, x ∈ bbMap)
    (hkept : ∀ phi ∈ F.phis bb, keptOf bbMap s.skipPhiPreds bb phi ≠ []) :
    convertBlock static F bbMap s bb = .ok (convertedBlock static F bbMap s bb) := by
  have hphi : (F.phis bb).mapM (emitPhiIncoming bbMap s.skipPhiPreds bb) =
      .ok ((F.phis bb).map (keptOf bbMap s.skipPhiPreds bb)) := by
    apply mapM_eq_ok
    intro phi hphi
    rw [emitPhiIncoming_eq, if_neg (hkept phi hphi)]
  rw [convertBlock, hphi, convertTerminator_eq hclosed]
  rfl

/-- What a block is converted to, if it is. -/
theorem eq_of_convertBlock {s s' : ConvertState} {bb : Nat}
    (hclosed : ∀ x ∈ followed static F bb, x ∈ bbMap)
    (h : convertBlock static F bbMap s bb = .ok s') :
    s' = convertedBlock static F bbMap s bb := by
  rw [convertBlock, convertTerminator_eq hclosed] at h
  cases hphi : (F.phis bb).mapM (emitPhiIncoming bbMap s.skipPhiPreds bb) with
  | error e =>
    rw [hphi] at h
    cases h
  | ok r =>
    have hr : r = (F.phis bb).map (keptOf bbMap s.skipPhiPreds bb) := by
      apply eq_map_of_mapM _ hphi
      intro phi _ kept hkept
      rw [emitPhiIncoming_eq] at hkept
      split at hkept
      · cases hkept
      · cases hkept
        rfl
    rw [hphi] at h
    cases h
    rw [hr]
    rfl

/-- What the loop fills in: the PHIs of a block leave out the edges that were pruned before it. -/
theorem foldlM_convertBlock_spec {l : List Nat} {s r : ConvertState} (hnodup : l.Nodup)
    (hclosed : ∀ b ∈ l, ∀ x ∈ followed static F b, x ∈ bbMap)
    (h : l.foldlM (convertBlock static F bbMap) s = .ok r) :
    (∀ before b after, l = before ++ b :: after →
      r.terminator b = terminatorOf static (F.terminator b) ∧
        r.phi b = (F.phis b).map (keptOf bbMap (s.skipPhiPreds ++ skipOf static F before) b)) ∧
      ∀ b ∉ l, r.terminator b = s.terminator b ∧ r.phi b = s.phi b := by
  induction l generalizing s with
  | nil =>
    cases h
    exact ⟨fun before b after hl => absurd hl.symm (by simp), fun b _ => ⟨rfl, rfl⟩⟩
  | cons a l ih =>
    rw [List.foldlM_cons] at h
    cases ha : convertBlock static F bbMap s a with
    | error e =>
      rw [ha] at h
      cases h
    | ok t =>
      rw [ha] at h
      obtain ⟨hal, hnodup⟩ := List.nodup_cons.mp hnodup
      have ht := eq_of_convertBlock (hclosed a (List.mem_cons_self ..)) ha
      obtain ⟨hin, hout⟩ := ih hnodup (fun b hb => hclosed b (List.mem_cons_of_mem a hb)) h
      constructor
      · intro before b after hl
        cases before with
        | nil =>
          cases hl
          obtain ⟨hterm, hphi⟩ := hout a hal
          rw [hterm, hphi, ht]
          simp [convertedBlock, skipOf]
        | cons c before =>
          cases hl
          obtain ⟨hterm, hphi⟩ := hin before b after rfl
          refine ⟨hterm, ?_⟩
          rw [hphi, ht]
          simp [convertedBlock, skipOf, List.append_assoc]
      · intro b hb
        obtain ⟨hterm, hphi⟩ := hout b fun hmem => hb (List.mem_cons_of_mem a hmem)
        have hba : b ≠ a := by
          rintro rfl
          exact hb (List.mem_cons_self ..)
        rw [hterm, hphi, ht]
        exact ⟨Function.update_of_ne hba .., Function.update_of_ne hba ..⟩

/-- The loop goes through when every PHI keeps some value. -/
theorem exists_foldlM_convertBlock {l : List Nat} {s : ConvertState}
    (hclosed : ∀ b ∈ l, ∀ x ∈ followed static F b, x ∈ bbMap)
    (hkept : ∀ before b after, l = before ++ b :: after → ∀ phi ∈ F.phis b,
      keptOf bbMap (s.skipPhiPreds ++ skipOf static F before) b phi ≠ []) :
    ∃ r, l.foldlM (convertBlock static F bbMap) s = .ok r := by
  induction l generalizing s with
  | nil => exact ⟨s, rfl⟩
  | cons a l ih =>
    have hfirst : ∀ phi ∈ F.phis a, keptOf bbMap s.skipPhiPreds a phi ≠ [] := by
      have h := hkept [] a l rfl
      simpa [skipOf] using h
    have hblock := convertBlock_ok (hclosed a (List.mem_cons_self ..)) hfirst
    obtain ⟨r, hr⟩ := ih (s := convertedBlock static F bbMap s a)
      (fun b hb => hclosed b (List.mem_cons_of_mem a hb)) (by
        intro before b after hl phi hphi
        have h := hkept (a :: before) b after (by rw [hl]; rfl) phi hphi
        simpa [convertedBlock, skipOf, List.append_assoc] using h)
    refine ⟨r, ?_⟩
    rw [List.foldlM_cons, hblock]
    exact hr

variable {order : List Nat}

/-- The branches of one block of a callee, when the blocks exist. -/
theorem foldlM_branches {bb : Nat} {l : List Nat} {succ succ' : Nat → List Nat}
    (h : l.foldlM (fun (succ : Nat → List Nat) s => do
      let node ← bbMapNode order s
      return Function.update succ bb (addUnique (succ bb) node)) succ = .ok succ') :
    (∀ s ∈ l, s ∈ order) ∧ succ' = Function.update succ bb (l.foldl addUnique (succ bb)) := by
  induction l generalizing succ with
  | nil =>
    cases h
    exact ⟨fun s hs => absurd hs List.not_mem_nil, (Function.update_eq_self ..).symm⟩
  | cons a l ih =>
    rw [List.foldlM_cons] at h
    by_cases ha : a ∈ order
    · rw [bbMapNode_of_mem ha] at h
      obtain ⟨hl, hsucc⟩ := ih h
      refine ⟨fun s hs => ?_, ?_⟩
      · rcases List.mem_cons.mp hs with rfl | hs
        · exact ha
        · exact hl s hs
      · rw [hsucc, Function.update_idem, Function.update_self, List.foldl_cons]
    · rw [bbMapNode, if_neg ha] at h
      cases h

/-- Branches to visited blocks are all added. -/
theorem foldlM_branches_ok {bb : Nat} {l : List Nat} (h : ∀ s ∈ l, s ∈ order)
    (succ : Nat → List Nat) :
    l.foldlM (fun (succ : Nat → List Nat) s => do
      let node ← bbMapNode order s
      return Function.update succ bb (addUnique (succ bb) node)) succ =
      .ok (Function.update succ bb (l.foldl addUnique (succ bb))) := by
  induction l generalizing succ with
  | nil =>
    rw [List.foldl_nil, Function.update_eq_self]
    rfl
  | cons a l ih =>
    rw [List.foldlM_cons, bbMapNode_of_mem (h a (List.mem_cons_self ..)), List.foldl_cons]
    have hrest := ih (fun s hs => h s (List.mem_cons_of_mem a hs))
      (Function.update succ bb (addUnique (succ bb) a))
    rw [Function.update_idem, Function.update_self] at hrest
    exact hrest

/-- The branches of a callee are added for all blocks or the node of some block does not exist. -/
theorem calleeBranches_spec {l : List Nat} {succ succ' : Nat → List Nat} (hnodup : l.Nodup)
    (h : l.foldlM (fun succ bb => (F.terminator bb).succs.foldlM (fun succ s => do
      let node ← bbMapNode order s
      return Function.update succ bb (addUnique (succ bb) node)) succ) succ = .ok succ') :
    (∀ b ∈ l, ∀ s ∈ (F.terminator b).succs, s ∈ order) ∧
      (∀ b ∈ l, succ' b = (F.terminator b).succs.foldl addUnique (succ b)) ∧
      ∀ b ∉ l, succ' b = succ b := by
  induction l generalizing succ with
  | nil =>
    cases h
    exact ⟨fun b hb => absurd hb List.not_mem_nil, fun b hb => absurd hb List.not_mem_nil,
      fun b _ => rfl⟩
  | cons a l ih =>
    rw [List.foldlM_cons] at h
    obtain ⟨hal, hnodup⟩ := List.nodup_cons.mp hnodup
    cases ha : (F.terminator a).succs.foldlM (fun (succ : Nat → List Nat) s => do
        let node ← bbMapNode order s
        return Function.update succ a (addUnique (succ a) node)) succ with
    | error e =>
      rw [ha] at h
      cases h
    | ok t =>
      rw [ha] at h
      obtain ⟨hmem, ht⟩ := foldlM_branches ha
      obtain ⟨hin, hsucc, hout⟩ := ih hnodup h
      refine ⟨fun b hb => ?_, fun b hb => ?_, fun b hb => ?_⟩
      · rcases List.mem_cons.mp hb with rfl | hb
        · exact hmem
        · exact hin b hb
      · rcases List.mem_cons.mp hb with heq | hb
        · rw [heq, hout a hal, ht, Function.update_self]
        · have hne : b ≠ a := by
            intro heq
            exact hal (heq ▸ hb)
          rw [hsucc b hb, ht, Function.update_of_ne hne]
      · have hne : b ≠ a := by
          intro heq
          exact hb (heq ▸ List.mem_cons_self ..)
        rw [hout b fun hmem => hb (List.mem_cons_of_mem a hmem), ht, Function.update_of_ne hne]

/-- A callee whose targets are visited gets all its branches. -/
theorem exists_calleeBranches {l : List Nat} (h : ∀ b ∈ l, ∀ s ∈ (F.terminator b).succs, s ∈ order)
    (succ : Nat → List Nat) :
    ∃ succ', l.foldlM (fun succ bb => (F.terminator bb).succs.foldlM (fun succ s => do
      let node ← bbMapNode order s
      return Function.update succ bb (addUnique (succ bb) node)) succ) succ = .ok succ' := by
  induction l generalizing succ with
  | nil => exact ⟨succ, rfl⟩
  | cons a l ih =>
    rw [List.foldlM_cons, foldlM_branches_ok (h a (List.mem_cons_self ..))]
    exact ih (fun b hb => h b (List.mem_cons_of_mem a hb)) _

/-- The predecessors that a PHI keeps: those with a node whose edge was not pruned before. -/
theorem mem_phiIncoming {registered : Nat → Bool} {skip : List (Nat × Nat)} {bb p : Nat}
    {incoming : List (Nat × Nat)} :
    p ∈ (phiIncoming registered skip bb incoming).map (·.1) ↔
      p ∈ incoming.map (·.1) ∧ (p, bb) ∉ skip ∧ registered p = true := by
  have hfold : ∀ (l kept : List (Nat × Nat)), p ∈ (l.foldl (fun kept q =>
      if (q.1, bb) ∈ skip then kept
      else if registered q.1 = true ∧ q.1 ∉ kept.map (·.1) then kept ++ [q]
      else kept) kept).map (·.1) ↔
      p ∈ kept.map (·.1) ∨ p ∈ l.map (·.1) ∧ (p, bb) ∉ skip ∧ registered p = true := by
    intro l
    induction l with
    | nil => simp
    | cons q l ih =>
      intro kept
      rw [List.foldl_cons, ih, List.map_cons, List.mem_cons]
      by_cases hskip : (q.1, bb) ∈ skip
      · rw [if_pos hskip]
        constructor
        · rintro (h | ⟨hl, h⟩)
          · exact .inl h
          · exact .inr ⟨.inr hl, h⟩
        · rintro (h | ⟨rfl | hl, h⟩)
          · exact .inl h
          · exact absurd hskip h.1
          · exact .inr ⟨hl, h⟩
      · rw [if_neg hskip]
        by_cases hnew : registered q.1 = true ∧ q.1 ∉ kept.map (·.1)
        · rw [if_pos hnew, List.map_append, List.mem_append, List.map_singleton,
            List.mem_singleton]
          constructor
          · rintro ((h | rfl) | ⟨hl, h⟩)
            · exact .inl h
            · exact .inr ⟨.inl rfl, hskip, hnew.1⟩
            · exact .inr ⟨.inr hl, h⟩
          · rintro (h | ⟨rfl | hl, h⟩)
            · exact .inl (.inl h)
            · exact .inl (.inr rfl)
            · exact .inr ⟨hl, h⟩
        · rw [if_neg hnew]
          constructor
          · rintro (h | ⟨hl, h⟩)
            · exact .inl h
            · exact .inr ⟨.inr hl, h⟩
          · rintro (h | ⟨rfl | hl, h⟩)
            · exact .inl h
            · left
              by_contra hout
              exact hnew ⟨h.2, hout⟩
            · exact .inr ⟨hl, h⟩
  rw [phiIncoming, hfold]
  simp

/-- Every successor is followed or pruned. -/
theorem mem_succs_iff {p x : Nat} : x ∈ (F.terminator p).succs ↔
    x ∈ followed static F p ∨ prunedOf static (F.terminator p) = some x := by
  unfold followed
  cases F.terminator p with
  | condBr c ifTrue ifFalse =>
    simp only [prunedOf, LlvmTerminator.succs]
    cases static c with
    | none => simp
    | some value =>
      cases value with
      | true => simp [eq_comm]
      | false => simp [eq_comm, or_comm]
  | br dest => simp [prunedOf]
  | switch width c default cases => simp [prunedOf]
  | ret => simp [prunedOf]
  | unreachable => simp [prunedOf]

/-- The side that is taken when the other one is pruned. -/
theorem mem_followed_of_condBr {p c ifTrue ifFalse : Nat} {value : Bool}
    (ht : F.terminator p = .condBr c ifTrue ifFalse) (hc : static c = some value) :
    (if value then ifFalse else ifTrue) ∈ followed static F p ↔ ifTrue = ifFalse := by
  unfold followed
  rw [ht]
  simp only [hc, List.mem_singleton]
  cases value with
  | true => exact eq_comm
  | false => exact Iff.rfl

/-- A block other than the entry is got to from some other. -/
theorem Reached.parent {b : Nat} (h : Reached static F b) (hne : b ≠ F.entry) :
    ∃ p, Reached static F p ∧ b ∈ followed static F p := by
  rcases Relation.ReflTransGen.cases_tail h with heq | ⟨p, hp, hstep⟩
  · exact absurd heq hne
  · exact ⟨p, hp, hstep⟩

/-- In a list without repetition, what stands before an element precedes it. -/
theorem mem_before_iff {l before after : List Nat} {a b : Nat} (hnodup : l.Nodup)
    (hl : l = before ++ b :: after) : a ∈ before ↔ Precedes l a b := by
  constructor
  · exact fun ha => ⟨before, after, hl, ha⟩
  · intro h
    have hlt := h.idxOf_lt hnodup
    by_contra ha
    rw [hl] at hnodup hlt
    have hb : b ∉ before := fun hb =>
      (List.nodup_append.mp hnodup).2.2 b hb b (List.mem_cons_self ..) rfl
    rw [List.idxOf_append_of_notMem ha, List.idxOf_append_of_notMem hb, List.idxOf_cons_self] at hlt
    omega

/-- A PHI has a value from exactly the predecessors of its block. -/
theorem mem_incoming_iff (hF : F.WellFormed) {x p : Nat} (hx : x < F.size) {phi : PhiNode}
    (hphi : phi ∈ F.phis x) :
    p ∈ phi.incoming.map (·.1) ↔ p < F.size ∧ x ∈ (F.terminator p).succs := by
  constructor
  · intro h
    obtain ⟨q, hq, rfl⟩ := List.mem_map.mp h
    have hlt := hF.phi_incoming_lt x hx phi hphi q hq
    have hcount := hF.phi_incoming x hx phi hphi q.1 hlt
    refine ⟨hlt, List.count_pos_iff.mp ?_⟩
    rw [← hcount]
    exact List.count_pos_iff.mpr h
  · rintro ⟨hlt, h⟩
    apply List.count_pos_iff.mp
    rw [hF.phi_incoming x hx phi hphi p hlt]
    exact List.count_pos_iff.mpr h

/-- A block with PHIs is not the entry, so that it is got to from some other. -/
theorem Reached.parent_of_phi (hF : F.WellFormed) {x : Nat} (hx : Reached static F x)
    {phi : PhiNode} (hphi : phi ∈ F.phis x) :
    ∃ p, Reached static F p ∧ x ∈ followed static F p := by
  apply hx.parent
  rintro rfl
  rw [hF.entry_phis] at hphi
  cases hphi

/-- A PHI with several values keeps those that have a node and whose edge was not pruned yet. -/
theorem mem_keptOf {before : List Nat} {x p : Nat} {phi : PhiNode}
    (hlength : phi.incoming.length ≠ 1) :
    p ∈ (keptOf bbMap (skipOf static F before) x phi).map (·.1) ↔
      p ∈ phi.incoming.map (·.1) ∧ p ∈ bbMap ∧
        ¬ (p ∈ before ∧ prunedOf static (F.terminator p) = some x) := by
  have hkept : keptOf bbMap (skipOf static F before) x phi =
      phiIncoming (fun b => decide (b ∈ bbMap)) (skipOf static F before) x phi.incoming := by
    unfold keptOf
    cases h : phi.incoming with
    | nil => rfl
    | cons a l =>
      cases l with
      | nil => exact absurd (by rw [h]; rfl) hlength
      | cons c l => rfl
  rw [hkept, mem_phiIncoming, mem_skipOf, decide_eq_true_iff]
  constructor
  · rintro ⟨hin, hskip, hmap⟩
    exact ⟨hin, hmap, hskip⟩
  · rintro ⟨hin, hmap, hskip⟩
    exact ⟨hin, hskip, hmap⟩

/-- A PHI on the pruned side of a branch has several values when control still gets to it. -/
theorem incoming_length_ne_one (hF : F.WellFormed) {b x : Nat} (hb : Reached static F b)
    (hx : Reached static F x) (hpruned : prunedOf static (F.terminator b) = some x)
    {phi : PhiNode} (hphi : phi ∈ F.phis x) : phi.incoming.length ≠ 1 := by
  obtain ⟨p, hp, hstep⟩ := hx.parent_of_phi hF hphi
  have hxlt := hx.lt hF
  have hlength : (phi.incoming.map (·.1)).length = phi.incoming.length := List.length_map ..
  rw [← hlength]
  intro hone
  obtain ⟨q, hq⟩ := List.length_eq_one_iff.mp hone
  have hbq : b ∈ phi.incoming.map (·.1) :=
    (mem_incoming_iff hF hxlt hphi).mpr ⟨hb.lt hF, mem_succs_iff.mpr (.inr hpruned)⟩
  have hpq : p ∈ phi.incoming.map (·.1) :=
    (mem_incoming_iff hF hxlt hphi).mpr ⟨hp.lt hF, mem_succs_iff.mpr (.inl hstep)⟩
  rw [hq, List.mem_singleton] at hbq hpq
  rw [hpq, ← hbq] at hstep
  -- Both edges of the branch go to the block.
  have hcount := hF.phi_incoming x hxlt phi hphi b (hb.lt hF)
  obtain ⟨c, ifTrue, ifFalse, value, ht, hc, hside⟩ := prunedOf_eq_some.mp hpruned
  rw [← hside, mem_followed_of_condBr ht hc] at hstep
  rw [hq, ht, ← hbq] at hcount
  subst hstep
  rw [ite_self] at hside
  subst hside
  simp [LlvmTerminator.succs] at hcount

variable {role : FunctionRole}

/-- The successors that the nodes get. -/
def nodeSuccs (static : Nat → Option Bool) (F : LlvmFunction) (role : FunctionRole) (b : Nat) :
    List Nat :=
  match role with
  | .primary => followed static F b
  | .callee => (F.terminator b).succs

/-- The conversion of a callee, with its order under the name that both roles have. -/
theorem convert_callee : convert static F .callee = (do
    let succ ← calleeBranches F (conversionOrder static F .callee)
    let s ← convertFunction static F (conversionOrder static F .callee)
    return ⟨conversionOrder static F .callee, succ, s.terminator, s.phi⟩) := rfl

/-- The conversion order is closed under the branches that are followed. -/
theorem followed_mem_conversionOrder (hF : F.WellFormed) :
    ∀ b ∈ conversionOrder static F role, ∀ x ∈ followed static F b,
      x ∈ conversionOrder static F role := by
  obtain ⟨-, hmem⟩ := @conversionOrder_spec static F hF role
  exact fun b hb x hx => (hmem x).mpr (((hmem b).mp hb).tail hx)

/-- What a conversion that succeeds has made of the function. -/
theorem convert_spec (hF : F.WellFormed) {f : ConvertedFunction}
    (h : convert static F role = .ok f) :
    f.blocks = conversionOrder static F role ∧
      (∀ b ∈ f.blocks, ∀ x, x ∈ f.succ b ↔ x ∈ nodeSuccs static F role b) ∧
      ∀ before b after, f.blocks = before ++ b :: after →
        f.terminator b = terminatorOf static (F.terminator b) ∧
        f.phi b = (F.phis b).map (keptOf f.blocks (skipOf static F before) b) := by
  obtain ⟨hnodup, -⟩ := @conversionOrder_spec static F hF role
  have hclosed := @followed_mem_conversionOrder static F role hF
  cases role with
  | primary =>
    obtain ⟨horder, hsucc⟩ := @legacy_spec static F hF
    rw [convert, horder] at h
    cases hs : convertFunction static F (conversionOrder static F .primary) with
    | error e =>
      rw [hs] at h
      cases h
    | ok s =>
      rw [hs] at h
      cases h
      refine ⟨rfl, hsucc, fun before b after hl => ?_⟩
      have hspec := (foldlM_convertBlock_spec hnodup hclosed hs).1 before b after hl
      exact hspec
  | callee =>
    rw [convert_callee] at h
    cases hbranches : calleeBranches F (conversionOrder static F .callee) with
    | error e =>
      rw [hbranches] at h
      cases h
    | ok succ =>
      rw [hbranches] at h
      cases hs : convertFunction static F (conversionOrder static F .callee) with
      | error e =>
        rw [hs] at h
        cases h
      | ok s =>
        rw [hs] at h
        cases h
        refine ⟨rfl, fun b hb x => ?_, fun before b after hl => ?_⟩
        · have hsucc := (calleeBranches_spec hnodup hbranches).2.1 b hb
          simp only [hsucc, mem_foldl_addUnique]
          simp [nodeSuccs]
        · have hspec := (foldlM_convertBlock_spec hnodup hclosed hs).1 before b after hl
          exact hspec

/-- The conversion succeeds when the successors of the nodes exist and every PHI keeps a value. -/
theorem exists_convert (hF : F.WellFormed)
    (hsuccs : ∀ b ∈ conversionOrder static F role, ∀ x ∈ nodeSuccs static F role b,
      x ∈ conversionOrder static F role)
    (hkept : ∀ before b after, conversionOrder static F role = before ++ b :: after →
      ∀ phi ∈ F.phis b,
        keptOf (conversionOrder static F role) (skipOf static F before) b phi ≠ []) :
    ∃ f, convert static F role = .ok f := by
  have hclosed := @followed_mem_conversionOrder static F role hF
  have hconverted : ∃ s, convertFunction static F (conversionOrder static F role) = .ok s :=
    exists_foldlM_convertBlock hclosed (by simpa using hkept)
  obtain ⟨s, hs⟩ := hconverted
  cases role with
  | primary =>
    obtain ⟨horder, -⟩ := @legacy_spec static F hF
    rw [convert, horder, hs]
    exact ⟨_, rfl⟩
  | callee =>
    obtain ⟨succ, hsucc⟩ := exists_calleeBranches hsuccs fun _ => []
    have hbranches : calleeBranches F (conversionOrder static F .callee) = .ok succ := hsucc
    rw [convert_callee, hbranches, hs]
    exact ⟨_, rfl⟩

/-- In a function that is convertible, a PHI keeps the values of the edges that are followed. -/
theorem Convertible.mem_keptOf (hF : F.WellFormed) (h : Convertible static F role)
    {before after : List Nat} {x p : Nat}
    (horder : conversionOrder static F role = before ++ x :: after) {phi : PhiNode}
    (hphi : phi ∈ F.phis x) :
    p ∈ (keptOf (conversionOrder static F role) (skipOf static F before) x phi).map (·.1) ↔
      Reached static F p ∧ x ∈ followed static F p := by
  obtain ⟨hnodup, hmem⟩ := @conversionOrder_spec static F hF role
  have hx : Reached static F x := by
    rw [← hmem, horder]
    exact List.mem_append_right _ (List.mem_cons_self ..)
  have hxlt := hx.lt hF
  have hincoming : ∀ {q}, Reached static F q → x ∈ followed static F q →
      q ∈ phi.incoming.map (·.1) := fun hq hstep =>
    (mem_incoming_iff hF hxlt hphi).mpr ⟨hq.lt hF, followed_subset hstep⟩
  by_cases hlength : phi.incoming.length = 1
  · obtain ⟨q, hq⟩ := List.length_eq_one_iff.mp hlength
    obtain ⟨p', hp', hstep⟩ := hx.parent_of_phi hF hphi
    have hpq : p' = q.1 := by
      have hp'q := hincoming hp' hstep
      rw [hq] at hp'q
      exact List.mem_singleton.mp hp'q
    have hkept : keptOf (conversionOrder static F role) (skipOf static F before) x phi = [q] := by
      unfold keptOf
      rw [hq]
    rw [hkept, List.map_singleton, List.mem_singleton]
    constructor
    · rintro rfl
      rw [← hpq]
      exact ⟨hp', hstep⟩
    · rintro ⟨hp, hstep⟩
      have hpq := hincoming hp hstep
      rw [hq] at hpq
      exact List.mem_singleton.mp hpq
  · have hconverse : ∀ {q}, Reached static F q → prunedOf static (F.terminator q) = some x →
        (q ∈ before ↔ x ∉ followed static F q) := by
      intro q hq hpruned
      obtain ⟨c, ifTrue, ifFalse, value, ht, hc, hside⟩ := prunedOf_eq_some.mp hpruned
      have hne : F.phis x ≠ [] := List.ne_nil_of_mem hphi
      have hprecedes := h.pruned q hq c ifTrue ifFalse value ht hc
      rw [hside] at hprecedes
      rw [mem_before_iff hnodup horder, hprecedes hx hne, ← hside, mem_followed_of_condBr ht hc]
    rw [Converter.mem_keptOf hlength, hmem]
    constructor
    · rintro ⟨hin, hp, hskip⟩
      refine ⟨hp, ?_⟩
      obtain ⟨-, hsucc⟩ := (mem_incoming_iff hF hxlt hphi).mp hin
      rcases mem_succs_iff.mp hsucc with hstep | hpruned
      · exact hstep
      · by_contra hnot
        exact hskip ⟨(hconverse hp hpruned).mpr hnot, hpruned⟩
    · rintro ⟨hp, hstep⟩
      exact ⟨hincoming hp hstep, hp, fun hskip => (hconverse hp hskip.2).mp hskip.1 hstep⟩

/-- In a function that is convertible, the nodes have the successors that are followed. -/
theorem Convertible.mem_nodeSuccs (h : Convertible static F role) {b x : Nat}
    (hb : Reached static F b) : x ∈ nodeSuccs static F role b ↔ x ∈ followed static F b := by
  cases role with
  | primary => exact Iff.rfl
  | callee =>
    rw [nodeSuccs, @mem_succs_iff static]
    constructor
    · rintro (hstep | hpruned)
      · exact hstep
      · obtain ⟨c, ifTrue, ifFalse, value, ht, hc, hside⟩ := prunedOf_eq_some.mp hpruned
        rw [← hside, mem_followed_of_condBr ht hc]
        exact h.callee rfl b hb c ifTrue ifFalse value ht hc
    · exact .inl

/-- A convertible function keeps its control flow. -/
theorem Convertible.keepsControlFlow (hF : F.WellFormed) (h : Convertible static F role) :
    KeepsControlFlow static F role := by
  obtain ⟨hnodup, hmem⟩ := @conversionOrder_spec static F hF role
  have hsplit : ∀ b ∈ conversionOrder static F role,
      ∃ before after, conversionOrder static F role = before ++ b :: after :=
    fun b hb => List.append_of_mem hb
  obtain ⟨f, hf⟩ : ∃ f, convert static F role = .ok f := by
    apply exists_convert hF
    · intro b hb x hx
      rw [h.mem_nodeSuccs ((hmem b).mp hb)] at hx
      exact followed_mem_conversionOrder hF b hb x hx
    · intro before x after horder phi hphi
      have hx : Reached static F x := by
        rw [← hmem, horder]
        exact List.mem_append_right _ (List.mem_cons_self ..)
      obtain ⟨p, hp⟩ := hx.parent_of_phi hF hphi
      intro hnil
      have hkept := (h.mem_keptOf hF horder hphi).mpr hp
      rw [hnil] at hkept
      cases hkept
  obtain ⟨hblocks, hsucc, hcontents⟩ := convert_spec hF hf
  refine ⟨f, hf, ?_, ?_, ?_⟩
  · intro b hb x
    rw [hsucc b hb]
    rw [hblocks] at hb
    obtain ⟨before, after, horder⟩ := hsplit b hb
    rw [(hcontents before b after (by rw [hblocks, horder])).1, mem_targets_terminatorOf,
      h.mem_nodeSuccs ((hmem b).mp hb)]
  · intro b hb condition register hcondition hregister
    rw [hblocks] at hb
    obtain ⟨before, after, horder⟩ := hsplit b hb
    rw [(hcontents before b after (by rw [hblocks, horder])).1]
    apply nextNode_eq hcondition
    intro width c default cases ht
    have hreached := (hmem b).mp hb
    obtain ⟨-, -, -, hcases⟩ := hF.cases b (hreached.lt hF) width c default cases ht
    exact nodeLabel_eq (h.switches b hreached width c default cases ht) hcases
      (hregister width c default cases ht)
  · intro x hx kept hkept p
    rw [hblocks] at hx
    obtain ⟨before, after, horder⟩ := hsplit x hx
    rw [(hcontents before x after (by rw [hblocks, horder])).2] at hkept
    obtain ⟨phi, hphi, rfl⟩ := List.mem_map.mp hkept
    rw [hblocks, h.mem_keptOf hF horder hphi, hmem]
    apply and_congr_right
    intro hp
    rw [hsucc p (by rw [hblocks, hmem]; exact hp), h.mem_nodeSuccs hp]

/-- A function that keeps its control flow is convertible. -/
theorem KeepsControlFlow.convertible (hF : F.WellFormed) (h : KeepsControlFlow static F role) :
    Convertible static F role := by
  obtain ⟨f, hf, hsame⟩ := h
  obtain ⟨hnodup, hmem⟩ := @conversionOrder_spec static F hF role
  obtain ⟨hblocks, hsucc, hcontents⟩ := convert_spec hF hf
  have hnode : ∀ {b}, Reached static F b → b ∈ f.blocks := fun hb => by rwa [hblocks, hmem]
  have hterminator : ∀ {b}, Reached static F b →
      f.terminator b = terminatorOf static (F.terminator b) := by
    intro b hb
    obtain ⟨before, after, horder⟩ := List.append_of_mem (hnode hb)
    exact (hcontents before b after horder).1
  have hfollowed : ∀ {b x}, Reached static F b → (x ∈ f.succ b ↔ x ∈ followed static F b) := by
    intro b x hb
    rw [hsame.targets b (hnode hb), hterminator hb, mem_targets_terminatorOf]
  constructor
  · intro b hb width c default cases ht
    obtain ⟨hpos, hwidth, hlt, hcases⟩ := hF.cases b (hb.lt hF) width c default cases ht
    apply switchFits_of_nodeLabel hpos hwidth hlt hcases
    intro register hregister
    have hnext := hsame.next b (hnode hb) (fun c => (static c).getD false) (fun _ => register)
      (fun c value hc => by rw [hc]; rfl) (fun w c' d cs ht' => by
        rw [ht] at ht'
        cases ht'
        exact hregister)
    rw [hterminator hb, ht, nextNode_switch] at hnext
    exact Option.some.inj hnext
  · rintro rfl b hb c ifTrue ifFalse value ht hc
    rw [← mem_followed_of_condBr ht hc, ← hfollowed hb, hsucc b (hnode hb), nodeSuccs,
      @mem_succs_iff static]
    exact .inr (prunedOf_eq_some.mpr ⟨c, ifTrue, ifFalse, value, ht, hc, rfl⟩)
  · intro b hb c ifTrue ifFalse value ht hc pruned hx hphis
    obtain ⟨phi, hphi⟩ := List.exists_mem_of_ne_nil _ hphis
    have hpruned : prunedOf static (F.terminator b) = some pruned :=
      prunedOf_eq_some.mpr ⟨c, ifTrue, ifFalse, value, ht, hc, rfl⟩
    obtain ⟨before, after, horder⟩ := List.append_of_mem (hnode hx)
    have hkept : keptOf f.blocks (skipOf static F before) pruned phi ∈ f.phi pruned := by
      rw [(hcontents before pruned after horder).2]
      exact List.mem_map_of_mem hphi
    have hin : b ∈ phi.incoming.map (·.1) :=
      (mem_incoming_iff hF (hx.lt hF) hphi).mpr ⟨hb.lt hF, mem_succs_iff.mpr (.inr hpruned)⟩
    have hsides := hsame.phis pruned (hnode hx) _ hkept b
    rw [Converter.mem_keptOf (incoming_length_ne_one hF hb hx hpruned hphi), hfollowed hb,
      mem_followed_of_condBr ht hc] at hsides
    rw [hblocks] at horder
    rw [← mem_before_iff hnodup horder]
    constructor
    · intro hbefore heq
      exact (hsides.mpr ⟨hnode hb, heq⟩).2.2 ⟨hbefore, hpruned⟩
    · intro hne
      by_contra hbefore
      exact hne (hsides.mp ⟨hin, hnode hb, fun hboth => hbefore hboth.1⟩).2

/-- The conversion keeps the control flow of exactly the convertible functions. -/
theorem keepsControlFlow_iff (hF : F.WellFormed) :
    KeepsControlFlow static F role ↔ Convertible static F role :=
  ⟨KeepsControlFlow.convertible hF, Convertible.keepsControlFlow hF⟩

/-- Every condition is known to be true. -/
def alwaysTrue : Nat → Option Bool := fun _ => some true

/-- A branch with one side each, and a PHI where they meet. -/
def diamond : LlvmFunction where
  size := 4
  entry := 0
  terminator b := [.condBr 0 1 2, .br 3, .br 3, .ret].getD b .ret
  phis b := if b = 3 then [⟨7, [(1, 5), (2, 6)]⟩] else []

/-- The diamond is a well-formed function. -/
theorem diamond_wellFormed : diamond.WellFormed where
  entry_lt := by decide
  succ_lt := by decide
  entry_not_succ := by decide
  entry_phis := rfl
  phi_incoming := by decide
  phi_incoming_lt := by decide
  cases := by
    intro b hb width c default cases ht
    change b < 4 at hb
    interval_cases b <;> cases ht

/-- With a known condition the PHI leaves out the side that control does not get to. -/
theorem diamond_keepsControlFlow : KeepsControlFlow alwaysTrue diamond .primary := by
  refine (keepsControlFlow_iff diamond_wellFormed).mpr ⟨?_, ?_, ?_⟩
  · intro b hb width c default cases ht
    have hlt : b < 4 := hb.lt diamond_wellFormed
    interval_cases b <;> cases ht
  · intro h
    cases h
  · intro b hb c ifTrue ifFalse value ht hc pruned _ hphis
    have hlt : b < 4 := hb.lt diamond_wellFormed
    interval_cases b <;> cases ht
    cases hc
    exact absurd rfl hphis

/-- A branch both sides of which return. -/
def bothReturn : LlvmFunction where
  size := 3
  entry := 0
  terminator b := [.condBr 0 1 2, .ret, .ret].getD b .ret
  phis _ := []

/-- A switch on 64 bits. -/
def wideSwitch : LlvmFunction where
  size := 3
  entry := 0
  terminator b := [.switch 64 0 1 [(2 ^ 32, 2)], .ret, .ret].getD b .ret
  phis _ := []

/-- A branch with one block on both sides, which has a PHI. -/
def doubleEdge : LlvmFunction where
  size := 2
  entry := 0
  terminator b := [.condBr 0 1 1, .ret].getD b .ret
  phis b := if b = 1 then [⟨7, [(0, 5), (0, 5)]⟩] else []

/-- The function that returns on both sides is well-formed. -/
theorem bothReturn_wellFormed : bothReturn.WellFormed where
  entry_lt := by decide
  succ_lt := by decide
  entry_not_succ := by decide
  entry_phis := rfl
  phi_incoming := by decide
  phi_incoming_lt := by decide
  cases := by
    intro b hb width c default cases ht
    change b < 3 at hb
    interval_cases b <;> cases ht

/-- The switch over wide labels is well-formed. -/
theorem wideSwitch_wellFormed : wideSwitch.WellFormed where
  entry_lt := by decide
  succ_lt := by decide
  entry_not_succ := by decide
  entry_phis := rfl
  phi_incoming := by decide
  phi_incoming_lt := by decide
  cases := by
    intro b hb width c default cases ht
    change b < 3 at hb
    interval_cases b <;> cases ht
    decide

/-- The switch with two edges to one block is well-formed. -/
theorem doubleEdge_wellFormed : doubleEdge.WellFormed where
  entry_lt := by decide
  succ_lt := by decide
  entry_not_succ := by decide
  entry_phis := rfl
  phi_incoming := by decide
  phi_incoming_lt := by decide
  cases := by
    intro b hb width c default cases ht
    change b < 2 at hb
    interval_cases b <;> cases ht

/-- A callee looks up the node of a side that is not visited, a label loses its upper bits, and a
PHI loses the edge that is taken. -/
theorem controlFlow_not_kept :
    (bothReturn.WellFormed ∧ ¬ KeepsControlFlow alwaysTrue bothReturn .callee) ∧
      (wideSwitch.WellFormed ∧ ¬ KeepsControlFlow (fun _ => none) wideSwitch .primary) ∧
      doubleEdge.WellFormed ∧ ¬ KeepsControlFlow alwaysTrue doubleEdge .primary := by
  refine ⟨⟨bothReturn_wellFormed, ?_⟩, ⟨wideSwitch_wellFormed, ?_⟩, doubleEdge_wellFormed, ?_⟩
  · rintro ⟨f, hf, -⟩
    have herror : convert alwaysTrue bothReturn .callee = .error .nullBlock := rfl
    rw [herror] at hf
    cases hf
  · rintro ⟨f, hf, hsame⟩
    obtain ⟨hblocks, -, hcontents⟩ := convert_spec wideSwitch_wellFormed hf
    have hstart : f.blocks = [] ++ 0 :: [1, 2] := hblocks
    have hnext := hsame.next 0 (by rw [hstart]; exact List.mem_cons_self ..) (fun _ => false)
      (fun _ => 0) (fun c value hc => by cases hc)
        (fun width c default cases _ => Nat.two_pow_pos _)
    rw [(hcontents [] 0 [1, 2] hstart).1] at hnext
    exact absurd hnext (by decide)
  · rintro ⟨f, hf, -⟩
    have herror : convert alwaysTrue doubleEdge .primary = .error .phiWithoutIncoming := rfl
    rw [herror] at hf
    cases hf

end DxilSpirv.Converter
