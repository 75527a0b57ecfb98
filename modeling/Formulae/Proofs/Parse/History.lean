import Formulae.Parse.Program
import Formulae.Proofs.Parse.Steps

/-!
# The history of a program

A head keeps little of what has happened: only the furthest of all the labels that were noted, and
for each site one outcome. This module tells what happened in full. The `History` of a run has every
note, in the order in which they were made, and every block that was run once and came to an end,
with its site and its outcome. It does not matter for it whether a block was wound back afterwards.

`Program.stepHistory` is the history of a step, and `Program.Comes` says which step is run when, and
with which history behind it, also within blocks. At each of these moments the head tells the
history as far as it can (`Head.Tells`): its furthest expectation is at the furthest note, with the
labels noted there, and the outcome stored for a site is the last one that a block came to there.
The steps preserve this one by one (`Program.Keeps`); the blocks do it because their steps do.
-/

namespace Formulae

/-- What has happened in a run, the earliest first. -/
structure History where
  /-- The labels that were noted, with the positions of the head. -/
  notes : List (Nat × Label) := []
  /-- The outcomes of the blocks that are run once, with the sites where they began. Blocks that
  were answered from the store or rejected the text are left out. -/
  ended : List (Site × Operand) := []

namespace History

instance : Append History where
  append H H' := ⟨H.notes ++ H'.notes, H.ended ++ H'.ended⟩

variable (H H' H'' : History)

@[simp] theorem notes_append : (H ++ H').notes = H.notes ++ H'.notes := rfl

@[simp] theorem ended_append : (H ++ H').ended = H.ended ++ H'.ended := rfl

@[simp] theorem append_empty : H ++ ({} : History) = H := by
  show (⟨H.notes ++ [], H.ended ++ []⟩ : History) = H
  rw [List.append_nil, List.append_nil]

theorem append_assoc : H ++ H' ++ H'' = H ++ (H' ++ H'') := by
  show (⟨_, _⟩ : History) = ⟨_, _⟩
  rw [notes_append, ended_append, List.append_assoc, List.append_assoc]
  rfl

/-- One note. -/
def noting (i : Nat) (label : Label) : History where
  notes := [(i, label)]

/-- The end of a block that was begun at a site. -/
def ending (site : Site) : Parser.Result Expr → History
  | .ok e h => { ended := [(site, some (e, h.position))] }
  | .error .noMatch _ => { ended := [(site, none)] }
  | .error (.rejected _) _ => {}

/-- The labels noted at a position, each once and in the order of their first note. -/
def labelsAt (i : Nat) : List Label :=
  ((H.notes.filter (·.1 = i)).map Prod.snd).eraseDups

/-- The last outcome that a site came to. -/
def last? (site : Site) : Option Operand :=
  (H.ended.reverse.find? (·.1 = site)).map Prod.snd

variable {H} {i j : Nat} {label : Label} {site : Site} {outcome : Operand}

/-- The labels at a place are those of the notes there. -/
theorem mem_labelsAt : label ∈ H.labelsAt i ↔ (i, label) ∈ H.notes := by
  simp [labelsAt, List.mem_eraseDups]

/-- A note at another place adds no label here. -/
theorem labelsAt_append_noting_of_ne (hne : j ≠ i) :
    (H ++ noting j label).labelsAt i = H.labelsAt i := by
  simp [labelsAt, noting, hne]

/-- A label that is noted here comes last, unless it has come before. -/
theorem labelsAt_append_noting (H : History) (i : Nat) (label : Label) :
    (H ++ noting i label).labelsAt i =
      if label ∈ H.labelsAt i then H.labelsAt i else H.labelsAt i ++ [label] := by
  have happend : ((H ++ noting i label).notes.filter (·.1 = i)).map Prod.snd =
      (H.notes.filter (·.1 = i)).map Prod.snd ++ [label] := by
    simp [noting]
  rw [labelsAt, happend, List.eraseDups_append, List.removeAll, List.filter_cons, List.filter_nil,
    labelsAt]
  by_cases hlabel : label ∈ (H.notes.filter (·.1 = i)).map Prod.snd
  · rw [if_pos (List.mem_eraseDups.2 hlabel), List.elem_eq_true_of_mem hlabel]
    exact List.append_nil _
  · rw [if_neg (mt List.mem_eraseDups.1 hlabel),
      eq_false_of_ne_true (mt List.elem_iff.1 hlabel)]
    rfl

/-- The block that ended last hides any earlier one from the same site. -/
theorem last?_append_ending (H : History) (site site' : Site) (outcome : Operand) :
    (H ++ { ended := [(site, outcome)] }).last? site' =
      if site = site' then some outcome else H.last? site' := by
  rw [last?, ended_append, List.reverse_append]
  by_cases hsite : site = site'
  · simp [hsite]
  · simp [hsite, last?]

/-- What comes last is what nothing for the same site comes after. -/
theorem last?_eq_of_append {front back : List (Site × Operand)}
    (hended : H.ended = front ++ (site, outcome) :: back) (hback : ∀ entry ∈ back, entry.1 ≠ site) :
    H.last? site = some outcome := by
  have hnone : back.reverse.find? (·.1 = site) = none := by
    simpa using hback
  rw [last?, hended, List.reverse_append, List.reverse_cons, List.append_assoc, List.find?_append,
    hnone]
  simp

end History

/-! ### What a head tells -/

/-- The furthest of the notes, with the labels noted there. -/
def History.FurthestIs (H : History) : Option Expectation → Prop
  | none => H.notes = []
  | some e => (∃ label, (e.position, label) ∈ H.notes) ∧
      (∀ note ∈ H.notes, note.1 ≤ e.position) ∧ e.labels = H.labelsAt e.position

/-- The head tells the history as far as it can. -/
structure Head.Tells (h : Head) (H : History) : Prop where
  furthestIs : H.FurthestIs h.furthest
  operands_eq : ∀ site : Site, h.operands[site]? = H.last? site

section

variable {H : History} {h h' : Head} {i : Nat} {label : Label} {furthest : Option Expectation}

/-- A new note that is further on than all others is the only one at its position. -/
theorem History.furthestIs_append_noting (hlt : ∀ note ∈ H.notes, note.1 < i) :
    (H ++ noting i label).FurthestIs (some ⟨i, [label]⟩) := by
  refine ⟨⟨label, ?_⟩, fun note hnote ↦ ?_, ?_⟩
  · exact List.mem_append_right _ (List.mem_singleton_self _)
  · rcases List.mem_append.1 hnote with hnote | hnote
    · exact Nat.le_of_lt (hlt note hnote)
    · exact Nat.le_of_eq (congrArg Prod.fst (List.mem_singleton.1 hnote))
  · have hnone : H.labelsAt i = [] := List.eq_nil_iff_forall_not_mem.2 fun label' hmem ↦
      Nat.lt_irrefl i (hlt _ (mem_labelsAt.1 hmem))
    rw [labelsAt_append_noting, hnone, if_neg (List.not_mem_nil)]
    rfl

/-- **The furthest expectation is made up note by note.** -/
theorem History.FurthestIs.add (hfurthest : H.FurthestIs furthest) (i : Nat) (label : Label) :
    (H ++ noting i label).FurthestIs (Expectation.add furthest i label) := by
  rcases furthest with - | e
  · have hnotes : H.notes = [] := hfurthest
    exact furthestIs_append_noting (by simp [hnotes])
  obtain ⟨⟨first, hfirst⟩, hle, hlabels⟩ := hfurthest
  have hle' (hi : i ≤ e.position) : ∀ note ∈ (H ++ noting i label).notes, note.1 ≤ e.position := by
    intro note hnote
    rcases List.mem_append.1 hnote with hnote | hnote
    · exact hle note hnote
    · exact List.mem_singleton.1 hnote ▸ hi
  have hfirst' : ∃ label', (e.position, label') ∈ (H ++ noting i label).notes :=
    ⟨first, List.mem_append_left _ hfirst⟩
  unfold Expectation.add
  dsimp only
  split
  · rename_i hlt
    refine ⟨hfirst', hle' (Nat.le_of_lt hlt), ?_⟩
    rw [labelsAt_append_noting_of_ne (Nat.ne_of_lt hlt), hlabels]
  split
  · rename_i hlt
    exact furthestIs_append_noting fun note hnote ↦ Nat.lt_of_le_of_lt (hle note hnote) hlt
  obtain rfl : i = e.position := by omega
  split
  · rename_i hmem
    refine ⟨hfirst', hle' (Nat.le_refl _), ?_⟩
    rw [labelsAt_append_noting, ← hlabels, if_pos hmem]
  · rename_i hmem
    refine ⟨hfirst', hle' (Nat.le_refl _), ?_⟩
    rw [labelsAt_append_noting, ← hlabels, if_neg hmem]

namespace Head

/-- At the start nothing has happened, and the head records nothing. -/
theorem tells_empty : ({} : Head).Tells {} where
  furthestIs := rfl
  operands_eq _ := Std.TreeMap.getElem?_emptyc

/-- What a head tells depends only on its record and its store. -/
theorem Tells.of_records (htells : h.Tells H) (hfurthest : h'.furthest = h.furthest)
    (hoperands : h'.operands = h.operands) : h'.Tells H where
  furthestIs := hfurthest ▸ htells.furthestIs
  operands_eq := hoperands ▸ htells.operands_eq

/-- A note goes into the record and into the history. -/
theorem Tells.noted (htells : h.Tells H) (label : Label) :
    (h.noted label).Tells (H ++ .noting h.position label) where
  furthestIs := htells.furthestIs.add h.position label
  operands_eq site := (htells.operands_eq site).trans <| by
    rw [History.last?, History.last?, History.ended_append, History.noting, List.append_nil]

/-- An outcome goes into the store and into the history. -/
theorem Tells.storing (htells : h.Tells H) (site : Site) (outcome : Operand) :
    ({ h with operands := h.operands.insert site outcome } : Head).Tells
      (H ++ { ended := [(site, outcome)] }) where
  furthestIs := by
    have hnotes : H ++ { ended := [(site, outcome)] } = ⟨H.notes, H.ended ++ [(site, outcome)]⟩ :=
      congrArg (History.mk · _) (List.append_nil _)
    rw [hnotes]
    exact htells.furthestIs
  operands_eq site' := by
    rw [Std.TreeMap.getElem?_insert, History.last?_append_ending, htells.operands_eq]
    exact ite_congr (propext Std.LawfulEqOrd.compare_eq_iff_eq) (fun _ ↦ rfl) fun _ ↦ rfl

/-- The outcome of a block is told from its end on. -/
theorem Tells.remembered {start : Head} {result : Parser.Result Expr}
    (htells : result.head.Tells H) :
    (Parser.remembered start result).head.Tells (H ++ .ending start.site result) := by
  match result, htells with
  | .ok e h', htells => exact htells.storing start.site (some (e, h'.position))
  | .error .noMatch h', htells => exact htells.storing start.site none
  | .error (.rejected r) h', htells =>
    rw [History.ending, History.append_empty]
    exact htells

/-- What is reported is the furthest of all notes. -/
theorem Tells.rejection_eq (htells : h.Tells H) (input : Input) :
    (H.notes = [] → h.rejection input = .incomplete [.expression] input.endColumn) ∧
      ∀ i label, (i, label) ∈ H.notes → (∀ note ∈ H.notes, note.1 ≤ i) →
        h.rejection input =
          match input.lexemes[i]? with
          | some lexeme => .unexpected lexeme.spelling (H.labelsAt i) lexeme.column
          | none => .incomplete (H.labelsAt i) input.endColumn := by
  have hfurthest := htells.furthestIs
  rw [Head.rejection]
  generalize h.furthest = furthest at hfurthest
  rcases furthest with - | ⟨j, labels⟩
  · have hnone : H.notes = [] := hfurthest
    refine ⟨fun _ ↦ rfl, fun i label hmem ↦ ?_⟩
    rw [hnone] at hmem
    cases hmem
  · obtain ⟨⟨first, hfirst⟩, hle, hlabels⟩ := hfurthest
    obtain rfl : labels = H.labelsAt j := hlabels
    refine ⟨fun hnone ↦ ?_, fun i label hmem hmax ↦ ?_⟩
    · rw [hnone] at hfirst
      cases hfirst
    · obtain rfl : i = j := Nat.le_antisymm (hle _ hmem) (hmax _ hfirst)
      rfl

end Head

end

/-! ### Histories of programs -/

namespace Program

section

variable (input : Input)

mutual

/-- What happens in a step. Nothing is told of the rules of the grammar. -/
def stepHistory : Step → Head → History
  | .exactly token label, h =>
    if input.token? h.position = some token then {} else .noting h.position label
  | .note label, h => .noting h.position label
  | .miss label, h => .noting h.position label
  | .optionally steps _, h => blockHistory steps h
  | .oneDeeper steps _, h =>
    match Parser.descend input h with
    | .error _ => {}
    | .ok h' => blockHistory steps h'
  | .onceBySite tree steps ending, h =>
    match Parser.replay? h with
    | some _ => {}
    | none =>
      blockHistory steps h ++ .ending h.site (runBlock input steps (finish tree ending) h).2
  | .next, _ | .take, _ | .atEnd, _ | .touching, _ | .implied, _ | .rule _, _ | .chain _ _, _ => {}

/-- What happens in the steps of a block, up to the first one that stops. -/
def blockHistory : List Step → Head → History
  | [], _ => {}
  | step :: rest, h =>
    match stop? (runStep input step h).1 with
    | some _ => stepHistory step h
    | none => stepHistory step h ++ blockHistory rest (runStep input step h).2

end

/-- While the program is run, the run comes to the steps that are left of it, or of one of its
blocks, at a head and with a history behind it. The flag tells a block, which goes on only if the
step before has answered, from the program itself. -/
inductive Comes (program : List Step) : Bool → List Step → Head → History → Prop where
  | start : Comes program false program {} {}
  | onward {inner : Bool} {step : Step} {rest : List Step} {h : Head} {H : History}
      (hcomes : Comes program inner (step :: rest) h H)
      (hgo : inner = true → stop? (runStep input step h).1 = none) :
      Comes program inner rest (runStep input step h).2 (H ++ stepHistory input step h)
  | optionally {inner : Bool} {steps rest : List Step} {ending : Ending} {h : Head} {H : History}
      (hcomes : Comes program inner (.optionally steps ending :: rest) h H) :
      Comes program true steps h H
  | oneDeeper {inner : Bool} {steps rest : List Step} {ending : Ending} {h h' : Head} {H : History}
      (hcomes : Comes program inner (.oneDeeper steps ending :: rest) h H)
      (hdescend : Parser.descend input h = .ok h') : Comes program true steps h' H
  | onceBySite {inner : Bool} {tree : Expr} {steps rest : List Step} {ending : Ending} {h : Head}
      {H : History} (hcomes : Comes program inner (.onceBySite tree steps ending :: rest) h H)
      (hlive : Parser.replay? h = none) : Comes program true steps h H

end

end Program

/-- The step moves the head by itself, and so do the steps in it: it asks for no rule. -/
inductive Step.Plain : Step → Prop where
  | next : Plain next
  | take : Plain take
  | atEnd : Plain atEnd
  | touching : Plain touching
  | implied : Plain implied
  | exactly (token : Token) (label : Label) : Plain (exactly token label)
  | note (label : Label) : Plain (note label)
  | miss (label : Label) : Plain (miss label)
  | optionally {steps : List Step} (hsteps : ∀ step ∈ steps, Plain step) (ending : Ending) :
      Plain (optionally steps ending)
  | oneDeeper {steps : List Step} (hsteps : ∀ step ∈ steps, Plain step) (ending : Ending) :
      Plain (oneDeeper steps ending)
  | onceBySite (tree : Expr) {steps : List Step} (hsteps : ∀ step ∈ steps, Plain step)
      (ending : Ending) : Plain (onceBySite tree steps ending)

namespace Program

variable {input : Input} {h h' : Head} {H : History}

/-- The step keeps the level, and the head tells its history, too. -/
structure Keeps (input : Input) (step : Step) : Prop where
  depth_eq : ∀ h, (runStep input step h).2.depth = h.depth
  tells : ∀ h H, h.Tells H → (runStep input step h).2.Tells (H ++ stepHistory input step h)

/-! ### Blocks -/

theorem head_finish {α : Type} (a : α) (ending : Ending) (h : Head) :
    (finish a ending h).head = h := by
  cases ending <;> rfl

section

variable {α : Type} {steps : List Step} (hsteps : ∀ step ∈ steps, Keeps input step)
  {ending : Head → Parser.Result α} (hending : ∀ h, (ending h).head = h)

include hsteps hending

/-- A block comes back to the depth where it began, as its steps do. -/
theorem depth_runBlock (h : Head) : (runBlock input steps ending h).2.head.depth = h.depth := by
  induction steps generalizing h with
  | nil =>
    rw [runBlock]
    exact congrArg Head.depth (hending h)
  | cons step steps ih =>
    have hstep := (hsteps step List.mem_cons_self).depth_eq h
    rcases hstop : stop? (runStep input step h).1 with - | stop
    · simp only [runBlock, hstop]
      exact (ih (fun step' hmem ↦ hsteps step' (List.mem_cons_of_mem _ hmem)) _).trans hstep
    · simp only [runBlock, hstop]
      exact hstep

/-- A block adds its own history to what was told before. -/
theorem tells_runBlock (htells : h.Tells H) :
    (runBlock input steps ending h).2.head.Tells (H ++ blockHistory input steps h) := by
  induction steps generalizing h H with
  | nil =>
    rw [runBlock, hending, blockHistory, History.append_empty]
    exact htells
  | cons step steps ih =>
    have hstep := (hsteps step List.mem_cons_self).tells h H htells
    rcases hstop : stop? (runStep input step h).1 with - | stop
    · simp only [runBlock, blockHistory, hstop, ← History.append_assoc]
      exact ih (fun step' hmem ↦ hsteps step' (List.mem_cons_of_mem _ hmem)) hstep
    · simp only [runBlock, blockHistory, hstop]
      exact hstep

end

/-! ### Steps -/

theorem head_report {α : Type} (inner : List Report) (answer : α → Answer)
    (result : Parser.Result α) : (report input inner (settle answer result)).2 = result.head := by
  cases result <;> rfl

/-- A step that does nothing but move the head or note a label. -/
theorem keeps_of_head {step : Step}
    (hhead : ∀ h, (∃ i, (runStep input step h).2 = h.backTo i ∧ stepHistory input step h = {}) ∨
      ∃ label, (runStep input step h).2 = h.noted label ∧
        stepHistory input step h = .noting h.position label) : Keeps input step where
  depth_eq h := by
    obtain ⟨i, hhead, -⟩ | ⟨label, hhead, -⟩ := hhead h <;> rw [hhead] <;> rfl
  tells h H htells := by
    obtain ⟨i, hhead, hhistory⟩ | ⟨label, hhead, hhistory⟩ := hhead h
    · rw [hhead, hhistory, History.append_empty]
      exact htells.of_records rfl rfl
    · rw [hhead, hhistory]
      exact htells.noted label

section

variable {steps : List Step} (hsteps : ∀ step ∈ steps, Keeps input step) (ending : Ending)

include hsteps

/-- A block that may be wound back keeps the head as its steps do. -/
theorem keeps_optionally : Keeps input (.optionally steps ending) where
  depth_eq h := by
    obtain ⟨i, hhead⟩ := Parser.head_rewound h (runBlock input steps (finish () ending) h).2
    rw [runStep, head_report, hhead]
    exact depth_runBlock hsteps (head_finish () ending) h
  tells h H htells := by
    obtain ⟨i, hhead⟩ := Parser.head_rewound h (runBlock input steps (finish () ending) h).2
    rw [runStep, head_report, hhead, stepHistory]
    exact (tells_runBlock hsteps (head_finish () ending) htells).of_records rfl rfl

/-- A block on the level below keeps the head as its steps do, or is rejected before them. -/
theorem keeps_oneDeeper : Keeps input (.oneDeeper steps ending) where
  depth_eq h := by
    rw [runStep, Parser.descend]
    by_cases hlt : h.depth < input.limit
    · have hinner := depth_runBlock hsteps (head_finish () ending) (h.atDepth (h.depth + 1))
      simp only [if_pos hlt, head_report, Parser.head_surfaced]
      exact congrArg (· - 1) hinner
    · simp only [if_neg hlt]
      rfl
  tells h H htells := by
    rw [runStep, stepHistory, Parser.descend]
    by_cases hlt : h.depth < input.limit
    · have hbelow : (h.atDepth (h.depth + 1)).Tells H := htells.of_records rfl rfl
      have hinner := tells_runBlock hsteps (head_finish () ending) hbelow
      simp only [if_pos hlt, head_report, Parser.head_surfaced]
      exact hinner.of_records rfl rfl
    · simp only [if_neg hlt, History.append_empty]
      exact htells

/-- A block that is shared keeps the head as its steps do, or is answered from the store. -/
theorem keeps_onceBySite (tree : Expr) : Keeps input (.onceBySite tree steps ending) where
  depth_eq h := by
    rw [runStep]
    rcases hreplay : Parser.replay? h with - | result
    · simp only [head_report, Parser.depth_remembered]
      exact depth_runBlock hsteps (head_finish tree ending) h
    · obtain ⟨i, hhead⟩ := Parser.head_of_replay? h hreplay
      simp only [head_report, hhead]
      rfl
  tells h H htells := by
    rw [runStep, stepHistory]
    rcases hreplay : Parser.replay? h with - | result
    · simp only [head_report]
      rw [← History.append_assoc]
      exact (tells_runBlock hsteps (head_finish tree ending) htells).remembered
    · obtain ⟨i, hhead⟩ := Parser.head_of_replay? h hreplay
      simp only [head_report, hhead, History.append_empty]
      exact htells.of_records rfl rfl

end

/-- **Every plain step keeps the level and tells its history.** -/
theorem keeps_of_plain {step : Step} (hplain : step.Plain) : Keeps input step := by
  induction hplain with
  | next | atEnd | touching | implied =>
    exact keeps_of_head fun h ↦ .inl ⟨h.position, by rw [runStep]; rfl, by rw [stepHistory]⟩
  | take =>
    refine keeps_of_head fun h ↦ .inl ?_
    rw [runStep, head_report, Parser.take?_apply, stepHistory]
    split
    · exact ⟨h.position + 1, rfl, rfl⟩
    · exact ⟨h.position, rfl, rfl⟩
  | exactly token label =>
    refine keeps_of_head fun h ↦ ?_
    rw [runStep, head_report, Parser.exactly_apply, stepHistory]
    split
    · exact .inl ⟨h.position + 1, rfl, rfl⟩
    · exact .inr ⟨label, rfl, rfl⟩
  | note label | miss label =>
    exact keeps_of_head fun h ↦ .inr ⟨label, by rw [runStep]; rfl, by rw [stepHistory]⟩
  | optionally _ ending ih => exact keeps_optionally ih ending
  | oneDeeper _ ending ih => exact keeps_oneDeeper ih ending
  | onceBySite tree _ ending ih => exact keeps_onceBySite ih ending tree

/-! ### Moments of a run -/

theorem plain_of_comes {program steps : List Step} {inner : Bool}
    (hplain : ∀ step ∈ program, step.Plain) (hcomes : Comes input program inner steps h H) :
    ∀ step ∈ steps, step.Plain := by
  induction hcomes with
  | start => exact hplain
  | onward _ _ ih => exact fun step hmem ↦ ih step (List.mem_cons_of_mem _ hmem)
  | optionally _ ih => cases ih _ List.mem_cons_self; assumption
  | oneDeeper _ _ ih => cases ih _ List.mem_cons_self; assumption
  | onceBySite _ _ ih => cases ih _ List.mem_cons_self; assumption

/-- **The head tells the history at every moment of a run.** -/
theorem tells_of_comes {program steps : List Step} {inner : Bool}
    (hplain : ∀ step ∈ program, step.Plain) (hcomes : Comes input program inner steps h H) :
    h.Tells H := by
  induction hcomes with
  | start => exact Head.tells_empty
  | onward hcomes _ ih =>
    exact (keeps_of_plain (plain_of_comes hplain hcomes _ List.mem_cons_self)).tells _ _ ih
  | optionally _ ih => exact ih
  | @oneDeeper _ _ _ _ h h' H _ hdescend ih =>
    rw [Parser.descend] at hdescend
    split at hdescend <;> cases hdescend
    exact ih.of_records rfl rfl
  | onceBySite _ _ ih => exact ih

/-- What becomes of a stored outcome where it is asked for again. -/
def replayed (h : Head) : Operand → Except Stop Answer × Head
  | some (e, stop) => (.ok (.tree e), h.backTo stop)
  | none => (.error .noMatch, h)

/-- A block that is run once does nothing where an outcome is stored, and comes to this outcome. -/
theorem runStep_of_stored {outcome : Operand} (tree : Expr) (block : List Step) (ending : Ending)
    (hfound : h.operands[h.site]? = some outcome) :
    stepHistory input (.onceBySite tree block ending) h = {} ∧
      runStep input (.onceBySite tree block ending) h =
        report input [] (replayed h outcome) := by
  rw [stepHistory, runStep, Parser.replay?, hfound]
  rcases outcome with - | ⟨e, stop⟩ <;> exact ⟨rfl, rfl⟩

/-- What happens in the steps of a program, whether they stop or not. -/
def history (input : Input) : List Step → Head → History
  | [], _ => {}
  | step :: rest, h => stepHistory input step h ++ history input rest (runStep input step h).2

/-- The end of a run is one of its moments. -/
theorem comes_run (input : Input) (program : List Step) :
    Comes input program false [] (run input program {}).2 (history input program {}) := by
  have hrun (steps : List Step) (h : Head) (H : History)
      (hcomes : Comes input program false steps h H) :
      Comes input program false [] (run input steps h).2 (H ++ history input steps h) := by
    induction steps generalizing h H with
    | nil =>
      rw [history, History.append_empty]
      exact hcomes
    | cons step steps ih =>
      rw [history, ← History.append_assoc]
      exact ih _ _ (hcomes.onward nofun)
  exact hrun program {} {} .start

/-- **A head reports the furthest mismatch of its whole history**, wherever it stands in the run of
a program, and whatever was wound back before. It is located at the furthest of all notes, and it
names the labels noted there, each once and in the order of their first note.

The step that comes next ends on the level where it starts. If it is an optional block that does not
match, it ends where it starts. If it is a block that is run once, and one at the same site has come
to an end before, then nothing is run or noted, and the outcome is that of the last such block. -/
theorem reports_history {program steps : List Step} {inner : Bool}
    (hplain : ∀ step ∈ program, step.Plain) (hcomes : Comes input program inner steps h H) :
    (H.notes = [] → h.rejection input = .incomplete [.expression] input.endColumn) ∧
    (∀ i label, (i, label) ∈ H.notes → (∀ note ∈ H.notes, note.1 ≤ i) →
      h.rejection input =
        match input.lexemes[i]? with
        | some lexeme => .unexpected lexeme.spelling (H.labelsAt i) lexeme.column
        | none => .incomplete (H.labelsAt i) input.endColumn) ∧
    (∀ step rest, steps = step :: rest → (runStep input step h).2.depth = h.depth) ∧
    (∀ block ending rest h', steps = .optionally block ending :: rest →
      (runBlock input block (finish () ending) h).2 = .error .noMatch h' →
        (runStep input (.optionally block ending) h).2.position = h.position) ∧
    (∀ tree block ending rest front outcome back,
      steps = .onceBySite tree block ending :: rest →
      H.ended = front ++ (h.site, outcome) :: back → (∀ entry ∈ back, entry.1 ≠ h.site) →
        stepHistory input (.onceBySite tree block ending) h = {} ∧
        runStep input (.onceBySite tree block ending) h =
          report input [] (replayed h outcome)) := by
  have htells := tells_of_comes hplain hcomes
  refine ⟨(htells.rejection_eq input).1, (htells.rejection_eq input).2, ?_, ?_, ?_⟩
  · rintro step rest rfl
    exact (keeps_of_plain (plain_of_comes hplain hcomes step List.mem_cons_self)).depth_eq h
  · rintro block ending rest h' - hmiss
    rw [runStep, head_report, hmiss]
    rfl
  · rintro tree block ending rest front outcome back - hended hback
    exact runStep_of_stored tree block ending
      ((htells.operands_eq _).trans (History.last?_eq_of_append hended hback))

/-- The first step is wound back, and within it two blocks end at one site, the inner one first. -/
theorem reports_history_wound_back :
    let input : Input :=
      { lexemes := #[⟨.identifier "x", "x", ⟨0, 1⟩⟩, ⟨.identifier "y", "y", ⟨2, 3⟩⟩]
        length := 3
        scope := {}
        limit := 0 }
    let last : Step := .onceBySite (.var "c") [.note .comma] .answer
    let program : List Step :=
      [.optionally [.onceBySite (.var "a") [.onceBySite (.var "b") [.take] .answer, .note .number,
        .take, .note .operator] .answer] .noMatch, last]
    ∃ h H, Comes input program false [last] h H ∧ H.notes = [(1, .number), (2, .operator)] ∧
      H.ended = [(⟨0, 0⟩, some (.var "b", 1)), (⟨0, 0⟩, some (.var "a", 2))] ∧
      h.rejection input = .incomplete [.operator] input.endColumn ∧
      runStep input last h = report input [] (.ok (.tree (.var "a")), h.backTo 2) := by
  intro input last program
  have htake : ∀ step ∈ [Step.take], step.Plain := List.forall_mem_singleton.2 .take
  have houter : ∀ step ∈ [Step.onceBySite (.var "b") [.take] .answer, .note .number, .take,
      .note .operator], step.Plain := by
    simp only [List.forall_mem_cons]
    exact ⟨.onceBySite _ htake _, .note _, .take, .note _, List.forall_mem_nil _⟩
  have hplain : ∀ step ∈ program, step.Plain := by
    simp only [program, List.forall_mem_cons]
    exact ⟨.optionally (List.forall_mem_singleton.2 (.onceBySite _ houter _)) _,
      .onceBySite _ (List.forall_mem_singleton.2 (.note _)) _, List.forall_mem_nil _⟩
  obtain ⟨h, H, hcomes, hnotes, hended, hsite⟩ : ∃ h H, Comes input program false [last] h H ∧
      H.notes = [(1, .number), (2, .operator)] ∧
      H.ended = [(⟨0, 0⟩, some (.var "b", 1)), (⟨0, 0⟩, some (.var "a", 2))] ∧
      h.site = ⟨0, 0⟩ :=
        -- trees hold functions, so the outcomes are compared by unfolding and not by deciding
        ⟨_, _, .onward .start (absurd · Bool.false_ne_true), by decide +kernel,
          by with_unfolding_all rfl, by decide +kernel⟩
  obtain ⟨-, hrejection, -, -, hstored⟩ := reports_history hplain hcomes
  refine ⟨h, H, hcomes, hnotes, hended, ?_, ?_⟩
  · have hlabels : H.labelsAt 2 = [.operator] := by
      rw [History.labelsAt, hnotes]
      rfl
    rw [hrejection 2 .operator (by simp [hnotes]) (by simp [hnotes]), hlabels]
    rfl
  · have hended' : H.ended = [(⟨0, 0⟩, some (.var "b", 1))] ++ [(h.site, some (.var "a", 2))] :=
      hsite ▸ hended
    exact (hstored _ _ _ [] _ (some (.var "a", 2)) [] rfl hended'
      (List.forall_mem_nil _)).2

end Program

end Formulae
