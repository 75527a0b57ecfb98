import Formulae.Proofs.Parse.Progress
import Mathlib.Data.Finset.Prod
import Mathlib.Order.Interval.Finset.Nat

/-!
# The store of operands

The outcome of an operand is stored at the site where the operand is asked for, one level above its
body. The body records the site at which it begins. Between the two the outcome is not stored yet,
and the parser comes to other operands, also at the same position. None of them begins a second body
at the same site, and this is a matter of levels: a body that has begun and is not stored yet stands
on the level of the head or above it, while a new one would stand below (`Head.Settled`).

So no body of an operand is begun twice at one site (`Settings.begun_run`), whether the first one
matched or not, and however often the position is taken back in between. As only so many sites lie
within a text and the limit, the number of bodies is linear in the number of tokens.

The same invariant says how parsers that share outcomes move. An answer from the store moves the
head to a stored end, which lies behind the place where it was asked for because the body that
found it moved forward.
-/

namespace Formulae

/-- The site at which the body of an operand begins: the same position, on the level below. -/
def Site.below (site : Site) : Site :=
  ⟨site.position, site.depth + 1⟩

theorem Site.below_injective : Function.Injective Site.below := by
  rintro ⟨position, depth⟩ ⟨position', depth'⟩ ⟨⟩
  rfl

namespace Head

/-- The head after an outcome was stored. -/
def storing (h : Head) (site : Site) (outcome : Operand) : Head :=
  { h with operands := h.operands.insert site outcome }

/-- The records of the head are within the text and the limit, the stored ends lie behind the places
they were found from, and no site occurs twice among those where a body was begun. Every stored
outcome is that of a body. -/
structure Orderly (input : Input) (h : Head) : Prop where
  position_le : h.position ≤ input.lexemes.size
  stored_end : ∀ (site : Site) (e : Expr) (stop : Nat), h.operands[site]? = some (some (e, stop)) →
    site.position < stop ∧ stop ≤ input.lexemes.size
  stored_begun : ∀ site ∈ h.operands, site.below ∈ h.begun
  begun_nodup : h.begun.Nodup
  begun_within : ∀ site ∈ h.begun,
    site.position ≤ input.lexemes.size ∧ 0 < site.depth ∧ site.depth ≤ input.limit

/-- The outcome of every body that was begun below the head is stored. -/
def Settled (h : Head) : Prop :=
  ∀ site : Site, site.below ∈ h.begun → h.depth ≤ site.depth → site ∈ h.operands

/-- The second head comes later in an orderly parse. Its records contain those of the first one. -/
structure Grown (input : Input) (h h' : Head) : Prop where
  orderly : h'.Orderly input
  within : Expectation.Within h.furthest h'.furthest
  kept : ∀ site ∈ h.operands, site ∈ h'.operands
  begun : h.begun <:+ h'.begun

/-- The second head comes later on the same level, at least the given number of tokens further, and
every body that was begun in between stands below. -/
structure Leads (input : Input) (stride : Nat) (h h' : Head) : Prop extends Grown input h h' where
  settled : h'.Settled
  position_add_le : h.position + stride ≤ h'.position
  depth_eq : h'.depth = h.depth
  deeper : ∀ site ∈ h'.begun, site ∈ h.begun ∨ h.depth < site.depth

variable {input : Input} {stride stride' : Nat} {h h₁ h₂ : Head}

/-! ### Moves -/

/-- Only a move can make a head disorderly that keeps its records. -/
theorem Orderly.of_records (horderly : h.Orderly input)
    (hposition : h₁.position ≤ input.lexemes.size) (hoperands : h₁.operands = h.operands)
    (hbegun : h₁.begun = h.begun) : h₁.Orderly input where
  position_le := hposition
  stored_end := hoperands ▸ horderly.stored_end
  stored_begun := hoperands ▸ hbegun ▸ horderly.stored_begun
  begun_nodup := hbegun ▸ horderly.begun_nodup
  begun_within := hbegun ▸ horderly.begun_within

theorem Grown.refl (horderly : h.Orderly input) : Grown input h h :=
  ⟨horderly, .refl _, fun _ ↦ id, List.suffix_refl _⟩

theorem Grown.trans (h₁₂ : Grown input h h₁) (h₂₃ : Grown input h₁ h₂) : Grown input h h₂ where
  orderly := h₂₃.orderly
  within := h₁₂.within.trans h₂₃.within
  kept site hsite := h₂₃.kept site (h₁₂.kept site hsite)
  begun := h₁₂.begun.trans h₂₃.begun

theorem Leads.refl (horderly : h.Orderly input) (hsettled : h.Settled) : Leads input 0 h h :=
  { Grown.refl horderly with
    settled := hsettled
    position_add_le := Nat.le_refl _
    depth_eq := rfl
    deeper := fun _ ↦ .inl }

theorem Leads.trans (h₁₂ : Leads input stride h h₁) (h₂₃ : Leads input stride' h₁ h₂) :
    Leads input (stride + stride') h h₂ :=
  { h₁₂.toGrown.trans h₂₃.toGrown with
    settled := h₂₃.settled
    position_add_le := by
      have := h₁₂.position_add_le
      have := h₂₃.position_add_le
      omega
    depth_eq := h₂₃.depth_eq.trans h₁₂.depth_eq
    deeper := fun site hsite ↦ by
      rcases h₂₃.deeper site hsite with hsite | hlt
      · exact h₁₂.deeper site hsite
      · exact .inr (h₁₂.depth_eq ▸ hlt) }

theorem Leads.mono (hleads : Leads input stride h h₁) (hle : stride' ≤ stride) :
    Leads input stride' h h₁ :=
  { hleads with position_add_le := Nat.le_trans (by omega) hleads.position_add_le }

theorem Leads.logged (hleads : Leads input stride h h₁) (events : List Event) :
    Leads input stride h (h₁.logged events) :=
  { hleads with orderly := hleads.orderly.of_records hleads.orderly.position_le rfl rfl }

theorem Leads.noted (hleads : Leads input stride h h₁) (label : Label) :
    Leads input stride h (h₁.noted label) :=
  { hleads with
    orderly := hleads.orderly.of_records hleads.orderly.position_le rfl rfl
    within := hleads.within.trans (.add _ _ _) }

/-- Any position within the text that is not behind the first head can be moved to. -/
theorem Leads.backTo (hleads : Leads input stride h h₁) {i : Nat} (hi : h.position + stride' ≤ i)
    (hle : i ≤ input.lexemes.size) : Leads input stride' h (h₁.backTo i) :=
  { hleads with
    orderly := hleads.orderly.of_records hle rfl rfl
    position_add_le := hi }

/-! ### The body of an operand -/

/-- A body begins at a site whose outcome is not stored. It has never begun there before. -/
theorem Orderly.entered (horderly : h.Orderly input) (hsettled : h.Settled)
    (hfresh : h.site ∉ h.operands) (hlt : h.depth < input.limit) :
    (h.atDepth (h.depth + 1)).entered.Orderly input where
  position_le := horderly.position_le
  stored_end := horderly.stored_end
  stored_begun site hsite := List.mem_cons_of_mem _ (horderly.stored_begun site hsite)
  begun_nodup := List.nodup_cons.2
    ⟨fun hbegun ↦ hfresh (hsettled h.site hbegun (Nat.le_refl _)), horderly.begun_nodup⟩
  begun_within site hsite := by
    rcases List.mem_cons.1 hsite with rfl | hsite
    · exact ⟨horderly.position_le, Nat.succ_pos _, hlt⟩
    · exact horderly.begun_within site hsite

theorem Settled.entered (hsettled : h.Settled) : (h.atDepth (h.depth + 1)).entered.Settled := by
  intro site hsite hle
  rcases List.mem_cons.1 hsite with heq | hsite
  · obtain rfl : site = h.site := Site.below_injective heq
    exact absurd hle (Nat.not_succ_le_self _)
  · exact hsettled site hsite (Nat.le_of_succ_le hle)

/-- Going down a level and recording a body drops nothing. -/
theorem Grown.of_entered (hgrown : Grown input (h.atDepth (h.depth + 1)).entered h₁) :
    Grown input h h₁ :=
  { hgrown with begun := (List.suffix_cons _ _).trans hgrown.begun }

/-- Another level changes no record. -/
theorem Grown.atDepth (hgrown : Grown input h h₁) (depth : Nat) :
    Grown input h (h₁.atDepth depth) :=
  { hgrown with orderly := hgrown.orderly.of_records hgrown.orderly.position_le rfl rfl }

theorem Grown.storing (hgrown : Grown input h h₁) {site : Site} {outcome : Operand}
    (hbegun : site.below ∈ h₁.begun)
    (hend : ∀ e stop, outcome = some (e, stop) → site.position < stop ∧ stop ≤ input.lexemes.size) :
    Grown input h (h₁.storing site outcome) :=
  { hgrown with
    orderly := { hgrown.orderly with
      stored_end := fun site' e stop hfound ↦ by
        rw [Head.storing, Std.TreeMap.getElem?_insert] at hfound
        split at hfound
        · rename_i heq
          cases Std.LawfulEqOrd.eq_of_compare heq
          exact hend e stop (Option.some.inj hfound)
        · exact hgrown.orderly.stored_end site' e stop hfound
      stored_begun := fun site' hsite' ↦ by
        rcases Std.TreeMap.mem_insert.1 hsite' with heq | hsite'
        · cases Std.LawfulEqOrd.eq_of_compare heq
          exact hbegun
        · exact hgrown.orderly.stored_begun site' hsite' }
    kept := fun site' hsite' ↦ Std.TreeMap.mem_insert.2 (.inr (hgrown.kept site' hsite')) }

/-- A body comes to its end, the level is taken back, and the outcome is stored. The one body that
was not settled on the level of the body is settled by this. -/
theorem Leads.storing (hsettled : h.Settled)
    (hleads : Leads input stride (h.atDepth (h.depth + 1)).entered h₁) {outcome : Operand}
    (hend : ∀ e stop, outcome = some (e, stop) →
      h.position < stop ∧ stop ≤ input.lexemes.size) :
    Leads input stride h ((h₁.atDepth (h₁.depth - 1)).storing h.site outcome) := by
  have hgrown := hleads.toGrown.of_entered.atDepth (h₁.depth - 1)
  have hdepth : h₁.depth - 1 = h.depth := by
    rw [hleads.depth_eq]
    rfl
  have hbegun : h.site.below ∈ h₁.begun := hleads.begun.subset (List.mem_cons_self ..)
  refine { hgrown.storing hbegun hend with
    settled := fun site hsite hle ↦ ?_
    position_add_le := hleads.position_add_le
    depth_eq := hdepth
    deeper := fun site hsite ↦ ?_ }
  · have hle : h.depth ≤ site.depth := hdepth ▸ hle
    refine Std.TreeMap.mem_insert.2 ?_
    rcases hleads.deeper _ hsite with hbegun | hdeeper
    · rcases List.mem_cons.1 hbegun with heq | hbegun
      · obtain rfl : site = h.site := Site.below_injective heq
        exact .inl Std.ReflCmp.compare_self
      · exact .inr (hgrown.kept _ (hsettled site hbegun hle))
    · exact .inr (hleads.settled site hsite (hleads.depth_eq ▸ Nat.le_of_lt_succ hdeeper))
  · rcases hleads.deeper site hsite with hbegun | hdeeper
    · rcases List.mem_cons.1 hbegun with rfl | hbegun
      · exact .inr (Nat.lt_succ_self _)
      · exact .inl hbegun
    · exact .inr (Nat.lt_of_succ_lt hdeeper)

end Head

/-! ### Runs -/

/-- The conduct of parsers that share outcomes, on one level. -/
def Conduct.store (input : Input) (depth : Nat) : Conduct input where
  holds h := h.depth = depth ∧ h.Orderly input ∧ h.Settled
  moves stride h h' := h.Leads input stride h'
  misses h h' := h.Leads input 0 h'
  stops h h' := h.Grown input h'
  moves_refl hh := .refl hh.2.1 hh.2.2
  moves_trans hleads hleads' := hleads.trans hleads'
  moves_mono hleads hle := hleads.mono hle
  holds_of_moves hh hleads := ⟨hleads.depth_eq.trans hh.1, hleads.orderly, hleads.settled⟩
  misses_after hleads hmiss := (hleads.trans hmiss).mono (Nat.zero_le _)
  stops_after hleads hgrown := hleads.toGrown.trans hgrown
  moves_logged events hleads := hleads.logged events
  moves_advanced hh htoken :=
    (Head.Leads.refl hh.2.1 hh.2.2).backTo (Nat.le_refl _) (Input.lt_size_of_token? htoken)
  moves_noted {_ label} hh _ := (Head.Leads.refl hh.2.1 hh.2.2).noted label
  misses_noted {_ label} hh _ := (Head.Leads.refl hh.2.1 hh.2.2).noted label
  moves_backTo hh hleads := hleads.backTo (Nat.le_refl _) hh.2.1.position_le

namespace Conduct

theorem lenient_store (input : Input) (depth : Nat) : (store input depth).Lenient where
  moves_operator hh := (Head.Leads.refl hh.2.1 hh.2.2).noted .operator
  misses_operator hh := (Head.Leads.refl hh.2.1 hh.2.2).noted .operator

variable {input : Input} {depth : Nat} {h : Head}

/-- An answer from the store moves to the stored end. -/
theorem allows_replay? (hh : (store input depth).holds h) {result : Parser.Result Expr}
    (hresult : Parser.replay? h = some result) : (store input depth).Allows 1 h result := by
  have hrefl : h.Leads input 0 h := .refl hh.2.1 hh.2.2
  rw [Parser.replay?] at hresult
  rcases hfound : h.operands[h.site]? with - | _ | ⟨e, stop⟩
  · rw [hfound] at hresult
    cases hresult
  · rw [hfound] at hresult
    cases hresult
    exact hrefl
  · rw [hfound] at hresult
    cases hresult
    obtain ⟨hlt, hle⟩ := hh.2.1.stored_end _ _ _ hfound
    exact hrefl.backTo hlt hle

/-- A body that obeys the conduct is begun, and its outcome is stored. -/
theorem allows_remembered {operand : Parser Expr}
    (hoperand : (store input (depth + 1)).Governs 1 operand) (hh : (store input depth).holds h)
    (hfresh : h.site ∉ h.operands) :
    (store input depth).Allows 1 h
      (Parser.remembered h (Parser.oneDeeper input (Parser.alternatives input operand) h)) := by
  obtain ⟨hdepth, horderly, hsettled⟩ := hh
  rw [Parser.oneDeeper_apply]
  split
  · rename_i hlt
    have hbody := allows_alternatives (governs_expression (lenient_store input _) hoperand) hoperand
      (h := h.atDepth (h.depth + 1))
      ⟨congrArg (· + 1) hdepth, horderly.entered hsettled hfresh hlt, hsettled.entered⟩
    match Parser.alternatives input operand (h.atDepth (h.depth + 1)), hbody with
    | .ok e h₁, hleads =>
      refine Head.Leads.storing hsettled hleads fun e' stop heq ↦ ?_
      cases heq
      exact ⟨hleads.position_add_le, hleads.orderly.position_le⟩
    | .error .noMatch h₁, hleads => exact Head.Leads.storing hsettled hleads nofun
    | .error (.rejected r) h₁, hgrown => exact hgrown.of_entered.atDepth _
  · exact Head.Grown.refl horderly

/-- A parser that is run only where nothing is stored can be asked for anywhere. -/
theorem governs_onceBySite {p : Parser Expr}
    (hp : ∀ h, (store input depth).holds h → h.site ∉ h.operands →
      (store input depth).Allows 1 h (Parser.remembered h (p h))) :
    (store input depth).Governs 1 (Parser.onceBySite p) := by
  intro h hh
  rw [Parser.onceBySite]
  rcases hreplay : Parser.replay? h with - | result
  · refine hp h hh fun hstored ↦ ?_
    obtain ⟨outcome, hfound⟩ := Option.isSome_iff_exists.1
      (Std.TreeMap.isSome_getElem?_iff_mem.2 hstored)
    rw [Parser.replay?, hfound] at hreplay
    rcases outcome with - | ⟨e, stop⟩ <;> cases hreplay
  · exact allows_replay? hh hreplay

/-- **Operands that share their outcomes are orderly** wherever the levels that are left reach the
limit. With fewer levels an outcome could be stored that is not that of a body. -/
theorem governs_operandBy_onceBySite {levels : Nat} (hlimit : input.limit ≤ depth + levels) :
    (store input depth).Governs 1 (Parser.operandBy input Parser.onceBySite levels) := by
  induction levels generalizing depth with
  | zero =>
    refine governs_onceBySite fun h hh _ ↦ ?_
    rw [Parser.oneDeeper_apply, if_neg (by have := hh.1; omega)]
    exact Head.Grown.refl hh.2.1
  | succ levels ih =>
    exact governs_onceBySite fun h hh hfresh ↦ allows_remembered (ih (by omega)) hh hfresh

theorem grown_of_allows {α : Type} {stride : Nat} {result : Parser.Result α}
    (hresult : (store input depth).Allows stride h result) : h.Grown input result.head := by
  match result, hresult with
  | .ok _ _, hleads => exact hleads.toGrown
  | .error .noMatch _, hleads => exact hleads.toGrown
  | .error (.rejected _) _, hgrown => exact hgrown

end Conduct

/-! ### Whole texts -/

/-- Only so many sites lie within a text and the limit. -/
theorem Head.Orderly.length_begun_le {input : Input} {h : Head} (horderly : h.Orderly input) :
    h.begun.length ≤ (input.lexemes.size + 1) * input.limit := by
  have hsites : h.begun.toFinset.card ≤
      (Finset.range (input.lexemes.size + 1) ×ˢ Finset.Icc 1 input.limit).card := by
    refine Finset.card_le_card_of_injOn (fun site ↦ (site.position, site.depth)) ?_ ?_
    · intro site hsite
      obtain ⟨hposition, hpos, hdepth⟩ := horderly.begun_within site (List.mem_toFinset.1 hsite)
      exact Finset.mem_product.2
        ⟨Finset.mem_range.2 (Nat.lt_succ_of_le hposition), Finset.mem_Icc.2 ⟨hpos, hdepth⟩⟩
    · rintro ⟨position, depth⟩ - ⟨position', depth'⟩ - ⟨⟩
      rfl
  rwa [List.toFinset_card_of_nodup horderly.begun_nodup, Finset.card_product, Finset.card_range,
    Nat.card_Icc, Nat.add_sub_cancel] at hsites

namespace Settings

theorem orderly_default (input : Input) : ({} : Head).Orderly input where
  position_le := Nat.zero_le _
  stored_end site e stop hfound := by
    rw [Std.TreeMap.getElem?_emptyc] at hfound
    cases hfound
  stored_begun site hsite := absurd hsite Std.TreeMap.not_mem_emptyc
  begun_nodup := .nil
  begun_within := nofun

/-- The run of the library on a whole text is orderly, whatever it comes to. -/
theorem grown_run (input : Input) : ({} : Head).Grown input (run input).head :=
  have hlimit := Nat.le_of_eq (Nat.zero_add input.limit).symm
  have hoperand := Conduct.governs_operandBy_onceBySite hlimit
  Conduct.grown_of_allows <| Conduct.governs_complete
    (Conduct.governs_expression (Conduct.lenient_store input 0) hoperand) {}
    ⟨rfl, orderly_default input, nofun⟩

/-- **The body of an operand is begun at most once at every position and depth.** So it is begun at
most as many times in a run as there are positions and levels. Every outcome that is stored, of a
match or not, is that of the one body that was begun there. -/
theorem begun_run (settings : Settings) (text : String) (lexemes : List Lexeme) :
    let head := (run (settings.input text lexemes)).head
    head.begun.Nodup ∧ head.begun.length ≤ (lexemes.length + 1) * settings.depthLimit ∧
      ∀ position depth, ⟨position, depth⟩ ∈ head.operands → ⟨position, depth + 1⟩ ∈ head.begun := by
  intro head
  have horderly : head.Orderly (settings.input text lexemes) := (grown_run _).orderly
  exact ⟨horderly.begun_nodup, horderly.length_begun_le,
    fun position depth hstored ↦ horderly.stored_begun ⟨position, depth⟩ hstored⟩

/-- With nothing shared, a call that is not closed makes the parser read the rest of the text once
more, behind the name as a factor. -/
example :
    let settings : Settings := { implied := true }
    let begun (share : Parser Expr → Parser Expr) := (scan "f(x").toOption.map fun lexemes ↦
      (runWith share (settings.input "f(x" lexemes)).head.begun.length
    begun id = some 4 ∧ begun Parser.onceBySite = some 3 := by
  decide +kernel

end Settings

end Formulae
