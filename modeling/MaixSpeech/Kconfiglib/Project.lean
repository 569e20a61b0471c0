import MaixSpeech.Kconfiglib.Loops
import MaixSpeech.Kconfiglib.Replace
import MaixSpeech.Kconfiglib.Roundtrip
import MaixSpeech.Kconfiglib.Sanity

/-!
# The project's Kconfig

Reference: `Kconfig`.

The configuration of the repository: two strings, and a choice of the CPU architecture. The menus of
the components are empty.
-/

namespace MaixSpeech.Kconfiglib

open Common Common.Memo Build

namespace Project

/-- The symbols of `Kconfig`, with the constants it mentions. -/
inductive Sym where
  | n | m | y | empty | modules
  | toolchainPath | toolchainPrefix
  | archX86 | archR329 | archRiscv64 | archAarch64 | archArmv7musl | archArmv7 | archV83x
deriving DecidableEq

/-- Its one choice. -/
inductive Choice where
  | arch
deriving DecidableEq

/-- A string with the default `""`. -/
def string (name : Text) : SymbolDef Sym Choice :=
  .config .n name .string (.item (.sym .y)) [(.item (.sym .empty), .item (.sym .y))]

/-- A symbol of the choice. -/
def arch (name : Text) : SymbolDef Sym Choice :=
  { SymbolDef.config .n name .bool (.item (.choice .arch)) [] with choice := some .arch }

def archSyms : List Sym :=
  [.archX86, .archR329, .archRiscv64, .archAarch64, .archArmv7musl, .archArmv7, .archV83x]

def tables : Tables Sym Choice where
  sym
    | .n => .constant .n "n".toList .n
    | .m => .constant .n "m".toList .m
    | .y => .constant .n "y".toList .y
    | .empty => .mentioned .n [] true
    | .modules => .mentioned .n "MODULES".toList false
    | .toolchainPath => string "TOOLCHAIN_PATH".toList
    | .toolchainPrefix => string "TOOLCHAIN_PREFIX".toList
    | .archX86 => arch "ARCH_X86".toList
    | .archR329 => arch "ARCH_R329".toList
    | .archRiscv64 => arch "ARCH_RISCV64".toList
    | .archAarch64 => arch "ARCH_AARCH64".toList
    | .archArmv7musl => arch "ARCH_ARMV7MUSL".toList
    | .archArmv7 => arch "ARCH_ARMV7".toList
    | .archV83x => arch "ARCH_V83X".toList
  choice
    | .arch =>
      { origType := .bool
        isOptional := false
        prompts := [.item (.sym .y)]
        defaults := [(.archX86, .item (.sym .y))]
        syms := archSyms }
  consts := ⟨.n, .m, .y⟩
  modules := .modules
  uniqueDefinedSyms := .toolchainPath :: .toolchainPrefix :: archSyms
  uniqueChoices := [.arch]

/-- The children of the top node. -/
def menu : List (MenuNode Sym Choice) :=
  let y := .item (.sym .y)
  [.mk .menu "Toolchain configuration".toList y y
      [.mk (.sym .toolchainPath) "toolchain path".toList y y [],
        .mk (.sym .toolchainPrefix) "toolchain prefix".toList y y []],
    .mk (.choice .arch) "CPU arch".toList y y
      (archSyms.map fun s => .mk (.sym s) [] (.item (.choice .arch)) y []),
    .mk .menu "Components configuration".toList y y
      [.mk .menu "asr_lib configuration".toList y y []]]

/-- Attributes stand above those they look at. -/
def rank : Key Sym Choice → ℕ
  | .visibility (.choice _) => 2
  | .visibility (.sym _) => 3
  | .selection _ => 4
  | .triValue s => if s ∈ tables.uniqueDefinedSyms then 5 else 0
  | .strValue s => if s ∈ tables.uniqueDefinedSyms then 6 else 1
  | .assignable _ => 6

theorem within_firstVisible (syms : List Sym) : (firstVisible syms : Attr tables (Option Sym)).Within
    (fun k => rank k < 4) fun _ => True := by
  induction syms with
  | nil => trivial
  | cons s syms ih =>
    have hvis : (visibility (.sym s) : Attr tables Tristate).Within (fun k => rank k < 4)
        fun _ => True := Query.within_get (Key.visibility (.sym s)) |>.mpr (Nat.lt_succ_self 3)
    exact hvis.bind fun _ => .ite (fun _ => ih) fun _ => trivial

theorem within_selectionFromDefaults :
    (selectionFromDefaults .arch (tables.choice .arch).defaults : Attr tables (Option Sym)).Within
      (fun k => rank k < 4) fun _ => True := by
  have hcond : (exprValue (.item (.sym .y)) : Attr tables Tristate).Within (fun k => rank k < 4)
      fun _ => True := ⟨by decide, fun _ => trivial⟩
  have hvis : (visibility (.sym .archX86) : Attr tables Tristate).Within (fun k => rank k < 4)
      fun _ => True := ⟨by decide, fun _ => trivial⟩
  refine hcond.bind fun _ => .ite (fun _ => within_firstVisible _) fun _ => ?_
  exact hvis.bind fun _ => .ite (fun _ => within_firstVisible _) fun _ => trivial

theorem within_strFrom {s : Sym} (htype : (tables.sym s).origType = .string)
    (hdef : (tables.sym s).defaults = [(.item (.sym .empty), .item (.sym .y))]) (vis : Tristate) :
    (strFrom s vis : Attr tables (Text × Bool)).Within (fun k => rank k < 6) fun _ => True := by
  have hcond : (exprValue (.item (.sym .y)) : Attr tables Tristate).Within (fun k => rank k < 6)
      fun _ => True := ⟨by decide, fun _ => trivial⟩
  have hempty : (defaultStr (.item (.sym .empty)) : Attr tables Text).Within (fun k => rank k < 6)
      fun _ => True := ⟨by decide, fun _ => trivial⟩
  have hdefault : (strDefault (tables.sym s).defaults : Attr tables (Text × Bool)).Within
      (fun k => rank k < 6) fun _ => True := by
    rw [hdef]
    refine hcond.bind fun _ => .ite (fun _ => trivial) fun _ => ?_
    exact hempty.bind fun _ => trivial
  have huser : (symUserValue s : Attr tables (Option UserValue)).Within (fun k => rank k < 6)
      fun _ => True := ⟨trivial, fun _ => trivial⟩
  refine huser.bind fun user => Query.Within.bind ?_ fun _ => trivial
  refine .ite (fun _ => ?_) fun h => absurd htype h
  unfold stringStr
  split
  · trivial
  · exact hdefault.bind fun _ => trivial

theorem within_assignable {s : Sym} (hrev : (tables.sym s).revDep = .item (.sym .n))
    (hweak : (tables.sym s).weakRevDep = .item (.sym .n))
    (htype : (tables.sym s).origType ≠ .tristate) :
    (symAssignable s : Attr tables (List Tristate)).Within (fun k => rank k < 6) fun _ => True := by
  have hn : (exprValue (.item (.sym .n)) : Attr tables Tristate).Within (fun k => rank k < 6)
      fun _ => True := ⟨by decide, fun _ => trivial⟩
  have hvis : (visibility (.sym s) : Attr tables Tristate).Within (fun k => rank k < 6)
      fun _ => True := Query.within_get (Key.visibility (.sym s)) |>.mpr (by decide : 3 < 6)
  refine .ite (fun _ => hvis.bind fun vis => .ite (fun _ => trivial) fun _ => ?_) fun _ => trivial
  rw [hrev]
  refine hn.bind fun rev => .ite (fun _ => trivial) fun _ => Query.Within.bind ?_ fun _ => trivial
  have himply := hn.bind (f := fun v => (pure (decide (v = .y)) : Attr tables Bool)) fun _ => trivial
  unfold noModule
  rw [hweak, symType, if_neg htype]
  refine .ite (fun _ => .ite (fun _ => trivial) fun _ => himply) fun _ => ?_
  exact .ite (fun _ => himply) fun _ => trivial

theorem acyclic : Ranked (body tables) rank := by
  intro k
  rcases k with (s | c) | s | s | c | (s | c)
  · cases s
    case n | m | y | empty | modules => trivial
    case toolchainPath | toolchainPrefix =>
      refine ⟨by decide, fun v => ?_⟩
      rcases v with ⟨- | - | -, -⟩ <;> trivial
    all_goals
      refine ⟨by decide, fun v => ⟨trivial, fun w => ?_⟩⟩
      cases v <;> rcases w with - | ⟨- | - | -⟩ <;> trivial
  · cases c
    refine ⟨by decide, fun v => ?_⟩
    rcases v with ⟨- | - | -, -⟩ <;> trivial
  · cases s
    case n | m | y | empty | modules | toolchainPath | toolchainPrefix => trivial
    all_goals
      refine ⟨by decide, fun v => ?_⟩
      cases v
      · trivial
      · exact ⟨trivial, fun _ => trivial⟩
      · exact ⟨by decide, fun _ => trivial⟩
  · cases s
    case empty | modules => trivial
    case toolchainPath | toolchainPrefix =>
      exact ⟨by decide, fun v => within_strFrom rfl rfl v⟩
    all_goals exact ⟨by decide, fun _ => trivial⟩
  · cases c
    have hmode : (choiceTriValue .arch : Attr tables Tristate).Within (fun k => rank k < 4)
        fun _ => True := by
      refine ⟨by decide, fun v => ⟨trivial, fun w => ?_⟩⟩
      cases v <;> rcases w with - | ⟨- | - | -⟩ <;> trivial
    refine hmode.bind fun mode => .ite (fun _ => trivial) fun _ => ⟨trivial, fun user => ?_⟩
    cases user with
    | none => exact within_selectionFromDefaults
    | some s =>
      have hvis : (visibility (.sym s) : Attr tables Tristate).Within (fun k => rank k < 4)
        fun _ => True := Query.within_get (Key.visibility (.sym s.1)) |>.mpr (Nat.lt_succ_self 3)
      exact hvis.bind fun _ => .ite (fun _ => within_selectionFromDefaults) fun _ => trivial
  · cases s
    case n | m | y | empty | modules | toolchainPath | toolchainPrefix => trivial
    all_goals exact within_assignable rfl rfl (by decide)
  · cases c
    refine ⟨by decide, fun v => ?_⟩
    cases v <;> trivial

/-- The configuration, with the dependencies that `_build_dep` registers. -/
def kconfig : Kconfig Sym Choice where
  toTables := tables
  dependents := fun i => tables.items.filter fun j => i ∈ tables.dependsOn j
  mem_dependents := fun i j => by simp
  mem_choices := fun c => by cases c; decide
  undefined := fun s => by cases s <;> decide
  defined := fun s => by cases s <;> decide
  preset := by decide
  choice_mem := fun s c hc => by
    revert hc
    cases c
    cases s <;> decide
  choice_syms := fun c s => by
    cases c
    cases s <;> decide
  choice_defaults := fun c d hd => by
    cases c
    obtain rfl := List.mem_singleton.mp hd
    decide
  rank := rank
  acyclic := acyclic

theorem regular (c : Choice) : kconfig.Regular c where
  type := by cases c; rfl
  symType := fun s => by
    cases c
    cases s <;> decide
  symChoice := fun s => by
    cases c
    cases s <;> decide
  prompts := fun s => by
    cases c
    cases s <;> decide

theorem wellNamed : WellNamed tables where
  plain := fun s => by
    unfold PlainName
    rw [← List.all_eq_true]
    cases s <;> decide
  unique := by decide

theorem tree : kconfig.Tree menu where
  named := wellNamed
  plain := by decide
  covers := fun s => by
    cases s
    case n | m | y | empty | modules => exact fun h => absurd h (by decide)
    case toolchainPath =>
      exact fun _ => ⟨"toolchain path".toList, .item (.sym .y), .item (.sym .y),
        by simp [menu, walkList, MenuNode.walk]⟩
    case toolchainPrefix =>
      exact fun _ => ⟨"toolchain prefix".toList, .item (.sym .y), .item (.sym .y),
        by simp [menu, walkList, MenuNode.walk]⟩
    all_goals
      exact fun _ => ⟨[], .item (.choice .arch), .item (.sym .y),
        by simp [menu, walkList, MenuNode.walk, archSyms]⟩

variable (u : User kconfig.toTables)

theorem choiceVis_arch : kconfig.choiceVis u .arch = .y := by
  have hy : (kconfig.values u).triValue (.sym .y) = .y := Kconfig.values_preset rfl
  have hprompts : promptsIn (kconfig.values u) [.item (.sym .y)] .n = .y := by
    rw [promptsIn, List.foldl_cons, Expr.value, hy]
    rfl
  rw [Kconfig.choiceVis_eq, choiceVisibilityIn]
  change promoteIf _ (promptsIn (kconfig.values u) [.item (.sym .y)] .n) = .y
  rw [hprompts]
  rw [promoteIf, if_neg]
  rintro ⟨h, -⟩
  cases h

/-- The choice is in y mode, whatever the user has set. -/
theorem modeIn_arch (user : Option Tristate) :
    modeIn kconfig.toTables (kconfig.values u) .arch (kconfig.choiceVis u .arch) user = .y := by
  have htype : choiceTypeIn kconfig.toTables (kconfig.values u) .arch = .bool := rfl
  rw [choiceVis_arch, modeIn, htype]
  rcases user with - | ⟨- | - | -⟩ <;> rfl

/-- Every state of this configuration is settled. -/
theorem settled : Kconfig.Settled u where
  raised := fun s => by
    cases s
    case n | m | y | empty | modules => exact fun h => absurd h (by decide)
    case toolchainPath | toolchainPrefix => exact fun _ htype => absurd htype (by decide)
    all_goals exact fun _ _ hc => absurd hc (by decide)
  mode := fun c _ => by
    cases c
    rw [Kconfig.mode_eq, modeIn_arch, modeIn_arch]
  env := fun s _ _ _ h => by
    cases s <;> exact absurd h (by decide)

/-- The strings are what the user has set them to, or empty. -/
theorem str_toolchain {s : Sym} (hs : s = .toolchainPath ∨ s = .toolchainPrefix) :
    kconfig.str u s = match u.symValue s with
      | some (.str t) => t
      | _ => [] := by
  have hy : (kconfig.values u).triValue (.sym .y) = .y := Kconfig.values_preset rfl
  have hempty : (kconfig.values u).strValue .empty = [] := by
    change (kconfig.vals u (.strValue .empty)).1 = []
    rw [Kconfig.vals_eq]
    rfl
  have hdef : (kconfig.sym s).origType = .string ∧ (kconfig.sym s).choice = none ∧
      (kconfig.sym s).prompts = [.item (.sym .y)] ∧
      (kconfig.sym s).defaults = [(.item (.sym .empty), .item (.sym .y))] := by
    rcases hs with rfl | rfl <;> exact ⟨rfl, rfl, rfl, rfl⟩
  obtain ⟨htype, hchoice, hprompts, hdefaults⟩ := hdef
  have hvis : kconfig.vis u s = .y := by
    have hmax : promptsIn (kconfig.values u) [.item (.sym .y)] .n = .y := by
      rw [promptsIn, List.foldl_cons, Expr.value, hy]
      rfl
    rw [Kconfig.vis_eq, symVisibilityIn, hprompts, hmax, hiddenIn, hchoice]
    rfl
  have hstr : kconfig.str u s = _ := congrArg Prod.fst (kconfig.str_typed u (s := s)
    (by rw [htype]; decide) (by rw [htype]; decide))
  rw [hstr, typedStrIn, if_pos htype, hvis, stringIn, hdefaults, strDefaultIn, Expr.value, hy,
    if_neg (by decide), hempty]
  rcases u.symValue s with - | ⟨t | t⟩ <;> rfl

/-- Strings that are set on one line are so in the file. -/
theorem plainTexts {calls : List (Call Sym Choice)}
    (h : ∀ s t, .setValue s (.str t) ∈ calls → '\n' ∉ t ∧ '\r' ∉ t) :
    Kconfig.PlainTexts (kconfig.after calls) := by
  intro s hs htype _
  have hstring : s = .toolchainPath ∨ s = .toolchainPrefix := by
    revert hs htype
    cases s <;> decide
  have hnot : isBoolTristate (kconfig.sym s).origType = false := htype
  rw [str_toolchain _ hstring]
  have hstr : (kconfig.sym s).origType = .string := by rcases hstring with rfl | rfl <;> rfl
  split
  · next t ht =>
    obtain ⟨hnl, hcr⟩ := h s t (Kconfig.mem_of_symValue_after hnot ht)
    exact ⟨hnl, hcr, fun hne => absurd hstr hne⟩
  · exact ⟨List.not_mem_nil, List.not_mem_nil, fun hne => absurd hstr hne⟩

/-- **The project's configuration round trips.** Whatever has been set before, as long as the strings
are on one line: written and loaded again it reads the same, and is written to the same file. -/
theorem project_roundtrip {calls : List (Call Sym Choice)}
    (h : ∀ s t, .setValue s (.str t) ∈ calls → '\n' ∉ t ∧ '\r' ∉ t)
    (calls' : List (Call Sym Choice)) :
    (∀ k, Kconfig.readFrom (kconfig.reload menu calls calls') k =
        Kconfig.readFrom (Kconfig.run kconfig.initial calls) k) ∧
      Kconfig.textFrom menu (kconfig.reload menu calls calls') =
        Kconfig.textFrom menu (Kconfig.run kconfig.initial calls) := by
  obtain ⟨st₁, st, hrun₁, hgood₁, huser₁, hreload, hgood, hiff⟩ :=
    Kconfig.reload_same regular tree (plainTexts h) calls'
  have hsame := hiff.mpr (settled _)
  rw [← huser₁] at hsame
  rw [hreload, hrun₁]
  refine ⟨fun k => ?_, Kconfig.textFrom_same hgood hgood₁ hsame menu⟩
  rw [Kconfig.readFrom_good hgood, Kconfig.readFrom_good hgood₁, hsame.1]

/-! ## One state -/

/-- The choice of the R329, with its toolchain. -/
def r329 : List (Call Sym Choice) :=
  [.setValue .toolchainPath (.str "/opt".toList), .setValue .archR329 (.str ['y'])]

/-- The choice of the V831. -/
def v83x : List (Call Sym Choice) := [.setValue .archV83x (.str ['y'])]

theorem run_transparent_r329 :
    let calls := r329 ++ [.get (.selection .arch), .unsetValue .archR329]
    ∃ st v, Kconfig.run kconfig.initial calls = some st ∧
      (Kconfig.get st (.selection .arch)).map (·.1) = some v ∧
      plain (body tables)
        (calls.foldl Kconfig.applyCall (User.empty : User kconfig.toTables)).inputs
        (kconfig.rank (.selection .arch) + 1) (.selection .arch) = some v :=
  Kconfig.run_transparent kconfig _ _

theorem oneLine_r329 (s : Sym) (t : Text) (h : .setValue s (.str t) ∈ r329) :
    '\n' ∉ t ∧ '\r' ∉ t := by
  have ht : t = "/opt".toList ∨ t = ['y'] := by
    simp only [r329, List.mem_cons, List.not_mem_nil, or_false, Call.setValue.injEq,
      UserValue.str.injEq] at h
    exact h.imp And.right And.right
  rcases ht with rfl | rfl <;> decide

theorem project_roundtrip_r329 :
    (∀ k, Kconfig.readFrom (kconfig.reload menu r329 v83x) k =
        Kconfig.readFrom (Kconfig.run kconfig.initial r329) k) ∧
      Kconfig.textFrom menu (kconfig.reload menu r329 v83x) =
        Kconfig.textFrom menu (Kconfig.run kconfig.initial r329) :=
  project_roundtrip oneLine_r329 v83x

theorem choice_selects_r329 :
    (∀ s ∈ (kconfig.choice .arch).syms, kconfig.triAfter r329 s = some .y ↔
      kconfig.selectionAfter r329 .arch = some (some s)) ∧
    (kconfig.selectionAfter r329 .arch ≠ some none ↔ kconfig.mode (kconfig.after r329) .arch = .y ∧
      ∃ s ∈ (kconfig.choice .arch).syms, kconfig.visAfter r329 s ≠ some .n) :=
  Kconfig.choice_selects (regular .arch) r329

theorem assignable_choice_r329 :
    kconfig.triAfter (r329 ++ [.setValue .archV83x (.tri .y)]) .archV83x = some .y := by
  have hmem : Sym.archV83x ∈ (kconfig.choice .arch).syms := by decide
  have hn : (kconfig.values (kconfig.after r329)).triValue (.sym .n) = .n :=
    Kconfig.values_preset rfl
  have hl : kconfig.assignableAfter r329 .archV83x = some [.y] := by decide
  exact Kconfig.assignable_choice (regular .arch) hmem r329 hn hn hl List.mem_cons_self

theorem load_replaces_r329 :
    let after := fun calls => (Kconfig.run kconfig.initial calls).bind fun st =>
      Kconfig.loadConfig st "CONFIG_ARCH_R329=y\n".toList true
    (∀ k, Kconfig.readFrom (after r329) k = Kconfig.readFrom (after v83x) k) ∧
      ∀ c, Kconfig.modeFrom (after r329) c = Kconfig.modeFrom (after v83x) c :=
  Kconfig.load_replaces (fun c => (regular c).type)
    (fun c _ htype => absurd htype (by cases c; decide)) r329 v83x

/-! ## The source -/

/-- A node with a prompt and nothing else. -/
def prompted (item : MenuItem Sym Choice) (prompt : Text) : Entry Sym Choice where
  item := some item
  prompt := some (prompt, .item (.sym .y))
  dep := .item (.sym .y)
  visibility := .item (.sym .y)
  defaults := []
  ranges := []
  selects := []
  implies := []

def withDefault (node : Entry Sym Choice) (s : Sym) : Entry Sym Choice :=
  { node with defaults := [(.item (.sym s), .item (.sym .y))] }

/-- The nodes of the choice. -/
def archNodes : Chain (Entry Sym Choice) :=
  [prompted (.sym .archX86) "x86 (Linux)".toList,
    prompted (.sym .archR329) "r329 (AIPU)".toList,
    prompted (.sym .archRiscv64) "riscv64 (D1)".toList,
    prompted (.sym .archAarch64) "aarch64 (r329)".toList,
    prompted (.sym .archArmv7musl) "armv7musl (v83x)".toList,
    prompted (.sym .archArmv7) "armv7 (Raspberry Pi 32bit, V3S)".toList,
    prompted (.sym .archV83x) "v83x (v831/v833 AWNN)".toList].foldr
      (fun node next => .cons node .nil next) .nil

/-- `Kconfig` as it is parsed. -/
def source : Chain (Entry Sym Choice) :=
  .cons (prompted .menu "Toolchain configuration".toList)
    (.cons (withDefault (prompted (.sym .toolchainPath) "toolchain path".toList) .empty) .nil
      (.cons (withDefault (prompted (.sym .toolchainPrefix) "toolchain prefix".toList) .empty) .nil
        .nil))
    (.cons (withDefault (prompted (.choice .arch) "CPU arch".toList) .archX86) archNodes
      (.cons (prompted .menu "Components configuration".toList)
        (.cons (prompted .menu "asr_lib configuration".toList) .nil .nil) .nil))

/-- The top node. -/
def topNode : Entry Sym Choice := prompted .menu "Maix-Speech configuration".toList

/-- The types that the source gives. -/
def sourceType (s : Sym) : SymbolType := (tables.sym s).origType

theorem parsed_source : source.Everywhere Entry.Parsed := by
  simp [source, archNodes, prompted, withDefault, Chain.Everywhere, Entry.Parsed]

def finalized : Option (Chain (Entry Sym Choice) × Collected Sym Choice) :=
  finalize tables.consts topNode source (.start tables.consts sourceType fun _ => .unknown)

theorem isSome_finalized : finalized.isSome = true := by decide

/-- The finalized menu. -/
def finalMenu : Chain (Entry Sym Choice) := (finalized.get isSome_finalized).1

/-- What its nodes give the symbols and the choice. -/
def finalProps : Collected Sym Choice := (finalized.get isSome_finalized).2

/-- The tables are what finalizing makes of the source. -/
theorem finalizedTables_source : finalizedTables tables finalMenu finalProps = tables := by
  have hsym : ∀ s, (finalizedTables tables finalMenu finalProps).sym s = tables.sym s := by
    intro s
    cases s <;> rfl
  have hchoice : ∀ c, (finalizedTables tables finalMenu finalProps).choice c = tables.choice c := by
    intro c
    cases c
    rfl
  exact congrArg₂ (fun sym choice => { tables with sym := sym, choice := choice }) (funext hsym)
    (funext hchoice)

theorem exists_finalize_means_source :
    ∃ menu st, finalize tables.consts topNode source
        (.start tables.consts sourceType fun _ => .unknown) = some (menu, st) ∧
      Finalized tables.consts topNode source
        (.start tables.consts sourceType fun _ => .unknown) menu st ∧
      ∀ v, tables.consts.Holds v → Means v topNode source menu st :=
  exists_finalize_means (by decide) rfl parsed_source _ _

theorem finalized_source : Finalized tables.consts topNode source
    (.start tables.consts sourceType fun _ => .unknown) finalMenu finalProps := by
  obtain ⟨menu, st, hrun, hfin⟩ := exists_finalize (k := tables.consts) (by decide) (rfl : topNode.item = _)
    parsed_source (.start tables.consts sourceType fun _ => .unknown)
  have hget : finalized.get isSome_finalized = (menu, st) := Option.get_of_eq_some _ hrun
  rw [finalMenu, finalProps, hget]
  exact hfin

/-- The node of the choice with its children. -/
def archFamily : Entry Sym Choice × List (Entry Sym Choice) :=
  finalMenu.families.get ⟨10, by decide⟩

theorem nodesOf_arch (s : Sym) (hs : s ∈ archSyms) :
    nodesOf (.sym s) finalMenu.preorder ⊆ archFamily.2 := by
  have hnode : ∃ i : Fin archFamily.2.length,
      nodesOf (.sym s) finalMenu.preorder = [archFamily.2.get i] := by
    simp only [archSyms, List.mem_cons, List.not_mem_nil, or_false] at hs
    rcases hs with rfl | rfl | rfl | rfl | rfl | rfl | rfl
    exacts [⟨⟨0, by decide⟩, rfl⟩, ⟨⟨1, by decide⟩, rfl⟩, ⟨⟨2, by decide⟩, rfl⟩,
      ⟨⟨3, by decide⟩, rfl⟩, ⟨⟨4, by decide⟩, rfl⟩, ⟨⟨5, by decide⟩, rfl⟩, ⟨⟨6, by decide⟩, rfl⟩]
  obtain ⟨i, hi⟩ := hnode
  rw [hi]
  exact List.cons_subset.mpr ⟨List.get_mem _ _, List.nil_subset _⟩

theorem sane_source (c : Choice) : Sane finalMenu finalProps c where
  type := by cases c; rfl
  symType := fun s hs => by
    have hmem := (finalized_source.mem_syms c s).mpr hs
    cases c
    have hlist : s ∈ archSyms := hmem
    clear hmem hs
    revert s
    decide
  inside := fun s hs x hx _ => by
    have hmem := (finalized_source.mem_syms c s).mpr hs
    cases c
    have hlist : s ∈ archSyms := hmem
    exact ⟨archFamily, List.get_mem _ _, rfl, nodesOf_arch s hlist hx⟩
  once := fun s _ d _ => by cases c; cases d; rfl

theorem regular_of_sane_source : kconfig.Regular .arch :=
  regular_of_sane finalized_source finalizedTables_source.symm (sane_source .arch)

end Project

end MaixSpeech.Kconfiglib
