import ScpCore.KelUnitExact
import ScpCore.KelKeyState

/-! The signature half of the check order. On a unit whose content passes, the walk,
sub-check 7b and step 9 accept exactly when the signature field reads to its end and
every signature in it verifies, and every other outcome is a damaged copy's. -/

namespace ScpCore.Kel

/-- A signer of a group with the signature the field carries for it. -/
abbrev Signer := UInt8 × SignatureForm × IndexedSignature

namespace GroupVerdicts

/-- Where no index is named twice, every signature is kept as the first at its index. -/
theorem foldl_new (signers : List Signer) (g : GroupVerdicts)
    (hn : (signers.map Prod.fst).Nodup) (hfresh : ∀ s ∈ signers, s.1 ∉ g.first.map Prod.fst) :
    ∀ g', signers.foldl (fun g (index, form, signature) =>
      if g.first.contains index then g
      else { g with
        order := g.order ++ [index]
        first := g.first.orInsert index (form, signature) }) g = g' →
    g'.keys = g.keys ∧ g'.order = g.order ++ signers.map Prod.fst ∧ g'.verdicts = g.verdicts ∧
      (∀ j v, g.first.get j = some v → g'.first.get j = some v) ∧
      ∀ s ∈ signers, g'.first.get s.1 = some s.2 := by
  induction signers generalizing g with
  | nil =>
    rintro g' rfl
    simp
  | cons s signers ih =>
    obtain ⟨index, form, signature⟩ := s
    intro g' hg'
    rw [List.map_cons, List.nodup_cons] at hn
    -- The indices are distinct, so each signer is the first of its index.
    have hnot : index ∉ g.first.map Prod.fst := hfresh (index, form, signature) (by simp)
    rw [List.foldl_cons] at hg'
    dsimp only at hg'
    rw [(OrderedMap.contains_eq_false_iff _ _).mpr hnot, if_neg Bool.false_ne_true] at hg'
    have hfresh' : ∀ t ∈ signers, t.1 ∉ (g.first.orInsert index (form, signature)).map Prod.fst := by
      intro t ht hm
      rcases (OrderedMap.mem_keys_orInsert _ _ _ _).mp hm with he | hm
      · exact hn.1 (List.mem_map.mpr ⟨t, ht, he⟩)
      · exact hfresh t (by simp [ht]) hm
    obtain ⟨hkeys, horder, hverdicts, hkept, hfirst⟩ := ih _ hn.2 hfresh' g' hg'
    have hget : (g.first.orInsert index (form, signature)).get index = some (form, signature) := by
      rw [OrderedMap.get_orInsert, (OrderedMap.get_eq_none_iff _ _).mpr hnot]
      simp
    refine ⟨hkeys, ?_, hverdicts, ?_, ?_⟩
    · rw [horder]
      simp
    · intro j v hj
      apply hkept
      have hne : j ≠ index := by
        rintro rfl
        rw [(OrderedMap.get_eq_none_iff _ _).mpr hnot] at hj
        cases hj
      rw [OrderedMap.get_orInsert, if_neg hne, hj]
    · intro t ht
      rcases List.mem_cons.mp ht with rfl | ht
      · exact hkept _ _ hget
      · exact hfirst t ht

end GroupVerdicts

section Group
variable (C : Crypto) (digest : Digest)

/-- A signature verifies against the key its group's set has at its index. -/
def Verifies (keys : KeySet) (s : Signer) : Prop :=
  ∃ key, keys.keys.get s.1 = some key ∧ C.verify key digest s.2.1 s.2.2 = .ok ()

/-- A group of these signers, whose verdicts are those its own signatures get. -/
structure GroupVerdicts.Of (keys : KeySet) (signers : List Signer) (g : GroupVerdicts) : Prop where
  keys_eq : g.keys = keys
  order_eq : g.order = signers.map Prod.fst
  first : ∀ s ∈ signers, g.first.get s.1 = some s.2
  verdicts : ∀ s ∈ signers, ∀ key, keys.keys.get s.1 = some key → ∀ v, g.verdicts.get s.1 = some v →
    v = C.verify key digest s.2.1 s.2.2

/-- Every index a group names is in its key set, and none is named twice. -/
structure Names (keys : KeySet) (signers : List Signer) : Prop where
  nodup : (signers.map Prod.fst).Nodup
  inSet : ∀ s ∈ signers, ∃ key, keys.keys.get s.1 = some key

variable {C digest} {keys : KeySet} {signers : List Signer}

theorem GroupVerdicts.of_new (hn : (signers.map Prod.fst).Nodup) :
    (GroupVerdicts.new keys signers).Of C digest keys signers := by
  obtain ⟨hkeys, horder, hverdicts, -, hfirst⟩ :=
    GroupVerdicts.foldl_new signers ⟨keys, [], [], []⟩ hn (by simp) _ rfl
  rw [List.nil_append] at horder
  refine ⟨hkeys, horder, hfirst, ?_⟩
  intro s _ key _ v hv
  have hnil : (GroupVerdicts.new keys signers).verdicts = [] := hverdicts
  rw [hnil] at hv
  cases hv

variable {g : GroupVerdicts} (hg : g.Of C digest keys signers) (hnames : Names keys signers)
include hg hnames

/-- A verdict asked for is the signature's own, whichever step asked first. -/
theorem GroupVerdicts.Of.verdict {s : Signer} (hs : s ∈ signers) {key : Key}
    (hkey : keys.keys.get s.1 = some key) :
    ∃ g', g.verdict C digest s.1 = (some (C.verify key digest s.2.1 s.2.2), g') ∧
      g'.Of C digest keys signers := by
  unfold GroupVerdicts.verdict
  rw [hg.keys_eq, hkey, hg.first s hs]
  cases hv : g.verdicts.get s.1 with
  | some v =>
    rw [hg.verdicts s hs key hkey v hv]
    exact ⟨g, rfl, hg⟩
  | none =>
    refine ⟨_, rfl, rfl, hg.order_eq, hg.first, ?_⟩
    intro t ht key' hkey' v' hv'
    dsimp only at hv'
    rw [OrderedMap.get_orInsert, hv] at hv'
    by_cases he : t.1 = s.1
    · -- One index is one signer, so the entry just made is this one's.
      obtain rfl : t = s := List.inj_on_of_nodup_map hnames.nodup ht hs he
      rw [if_pos rfl, Option.getD_none, Option.some.injEq] at hv'
      rw [hkey, Option.some.injEq] at hkey'
      rw [← hv', hkey']
    · rw [if_neg he] at hv'
      exact hg.verdicts t ht key' hkey' v' hv'

/-- Sub-check 7b counts every signature that verifies, up to the threshold. -/
theorem GroupVerdicts.Of.verifiedFrom {rest : List Signer} (hrest : rest ⊆ signers) (count : ℕ) :
    ∃ b g', GroupVerdicts.verifiedFrom C digest (rest.map Prod.fst) count g = (b, g') ∧
      g'.Of C digest keys signers ∧
      ((∀ s ∈ rest, Verifies C digest keys s) → keys.threshold ≤ count + rest.length → b = true) := by
  induction rest generalizing count g with
  | nil =>
    refine ⟨_, g, rfl, hg, ?_⟩
    intro _ hle
    simpa [reaches, hg.keys_eq] using hle
  | cons s rest ih =>
    rw [List.map_cons, GroupVerdicts.verifiedFrom]
    by_cases hreach : reaches count g.keys.threshold = true
    · rw [if_pos hreach]
      exact ⟨true, g, rfl, hg, fun _ _ => rfl⟩
    · rw [if_neg hreach]
      have hs : s ∈ signers := hrest (by simp)
      obtain ⟨key, hkey⟩ := hnames.inSet s hs
      obtain ⟨g', hverdict, hg'⟩ := hg.verdict hnames hs hkey
      have hsub : rest ⊆ signers := fun t ht => hrest (by simp [ht])
      rw [hverdict]
      cases hv : C.verify key digest s.2.1 s.2.2 with
      | ok u =>
        obtain ⟨b, g'', hrun, hg'', hcount⟩ := ih hg' hsub (count+1)
        refine ⟨b, g'', hrun, hg'', ?_⟩
        intro hall hle
        rw [List.length_cons] at hle
        exact hcount (fun t ht => hall t (by simp [ht])) (by omega)
      | error e =>
        obtain ⟨b, g'', hrun, hg'', -⟩ := ih hg' hsub count
        refine ⟨b, g'', hrun, hg'', ?_⟩
        intro hall
        obtain ⟨key', hkey', hok⟩ := hall s (by simp)
        rw [hkey, Option.some.injEq] at hkey'
        rw [← hkey', hv] at hok
        cases hok

/-- Step 9 passes a group exactly when each of its signatures verifies. -/
theorem GroupVerdicts.Of.allVerifyFrom {rest : List Signer} (hrest : rest ⊆ signers) :
    ((∀ s ∈ rest, Verifies C digest keys s) ∧
      ∃ g', GroupVerdicts.allVerifyFrom C digest (rest.map Prod.fst) g = .ok g' ∧ g'.Of C digest keys signers) ∨
    ((¬ ∀ s ∈ rest, Verifies C digest keys s) ∧
      ∃ index error, GroupVerdicts.allVerifyFrom C digest (rest.map Prod.fst) g = .error (.failed index error)) := by
  induction rest generalizing g with
  | nil => exact .inl ⟨by simp, g, rfl, hg⟩
  | cons s rest ih =>
    have hs : s ∈ signers := hrest (by simp)
    obtain ⟨key, hkey⟩ := hnames.inSet s hs
    obtain ⟨g', hverdict, hg'⟩ := hg.verdict hnames hs hkey
    have hsub : rest ⊆ signers := fun t ht => hrest (by simp [ht])
    rw [List.map_cons, GroupVerdicts.allVerifyFrom, hverdict]
    cases hv : C.verify key digest s.2.1 s.2.2 with
    | ok u =>
      have hfirst : Verifies C digest keys s := ⟨key, hkey, hv⟩
      rcases ih hg' hsub with ⟨hall, hrun⟩ | ⟨hnot, hrun⟩
      · exact .inl ⟨List.forall_mem_cons.mpr ⟨hfirst, hall⟩, hrun⟩
      · exact .inr ⟨fun hall => hnot (List.forall_mem_cons.mp hall).2, hrun⟩
    | error e =>
      refine .inr ⟨?_, s.1, e, rfl⟩
      intro hall
      obtain ⟨key', hkey', hok⟩ := hall s (by simp)
      rw [hkey, Option.some.injEq] at hkey'
      rw [← hkey', hv] at hok
      cases hok

end Group

/-- A group's signers, each with the signature the field carries for it. -/
def namedSigners (group : HeaderGroup) (signed : List NamedSignature) : List Signer :=
  (group.signers.zip signed).map (fun (signer, named) => (signer.index, signer.form, named.signature))

/-- Step 8 passed a group against a key set: no index is named twice, each is in the
set, and the threshold is reached. -/
structure GroupPasses (keys : KeySet) (group : HeaderGroup) : Prop where
  nodup : (group.signers.map (·.index)).Nodup
  inSet : ∀ s ∈ group.signers, ∃ key, keys.keys.get s.index = some key
  threshold : keys.threshold ≤ group.signers.length

/-- A group as it was walked, with the key set that step 8 assigns to it. -/
structure Walked where
  group : HeaderGroup
  signed : List NamedSignature
  keys : KeySet

def Walked.signers (w : Walked) : List Signer := namedSigners w.group w.signed

/-- Step 8 passed the group and the walk read one signature for each signer. -/
structure Walked.Passes (w : Walked) : Prop where
  group : GroupPasses w.keys w.group
  length : w.signed.length = w.group.signers.length

theorem Walked.Passes.signers_length {w : Walked} (h : w.Passes) :
    w.signers.length = w.group.signers.length := by
  simp [Walked.signers, namedSigners, h.length]

theorem Walked.Passes.names {w : Walked} (h : w.Passes) : Names w.keys w.signers := by
  have hindices : w.signers.map Prod.fst = w.group.signers.map (·.index) := by
    have hzip := List.map_fst_zip (le_of_eq h.length.symm)
    calc w.signers.map Prod.fst
        = ((w.group.signers.zip w.signed).map Prod.fst).map (·.index) := by
          simp [Walked.signers, namedSigners]
      _ = w.group.signers.map (·.index) := by rw [hzip]
  refine ⟨hindices ▸ h.group.nodup, ?_⟩
  intro s hs
  obtain ⟨t, ht, rfl⟩ := List.mem_map.mp hs
  exact h.group.inSet t.1 (List.of_mem_zip ht).1

section Groups
variable (C : Crypto) (digest : Digest)

/-- The verdicts a slot holds are those of its own group. -/
def SlotOf (w : Walked) (slot : Option GroupVerdicts) : Prop :=
  ∀ g ∈ slot, g.Of C digest w.keys w.signers

/-- Every signature of every group verifies. -/
def AllVerify (ws : List Walked) : Prop := ∀ w ∈ ws, ∀ s ∈ w.signers, Verifies C digest w.keys s

/-- A slot as 7b finds it: one that passed 7a holds a group that can reach its threshold. -/
structure Anchors (w : Walked) (x : Option GroupVerdicts × Bool) : Prop where
  passes : w.Passes
  slot : SlotOf C digest w x.1
  anchored : x.2 = true → x.1.isSome

variable {C digest} {ws : List Walked}

theorem AllVerify.tail {w : Walked} (h : AllVerify C digest (w :: ws)) : AllVerify C digest ws :=
  fun v hv => h v (List.mem_cons_of_mem _ hv)

/-- Sub-check 7b leaves each slot with its own group's verdicts. -/
theorem verifyAnchored_slots {slots : List (Option GroupVerdicts × Bool)}
    (h : List.Forall₂ (Anchors C digest) ws slots) {out : List (Option GroupVerdicts)}
    (hout : verifyAnchored C digest slots = some out) :
    List.Forall₂ (SlotOf C digest) ws out := by
  have hslots {ws : List Walked} {slots : List (Option GroupVerdicts × Bool)}
      (h : List.Forall₂ (Anchors C digest) ws slots) :
      List.Forall₂ (SlotOf C digest) ws (slots.map (·.1)) := by
    rw [List.forall₂_map_right_iff]
    exact h.imp (fun _ _ hx => hx.slot)
  induction h generalizing out with
  | nil => cases hout
  | @cons w x ws slots hx hrest ih =>
    obtain ⟨slot, flag⟩ := x
    have hskip {slot' : Option GroupVerdicts} (hslot : SlotOf C digest w slot')
        (hout : (verifyAnchored C digest slots).map (slot' :: ·) = some out) :
        List.Forall₂ (SlotOf C digest) (w :: ws) out := by
      obtain ⟨out', hout', rfl⟩ := Option.map_eq_some_iff.mp hout
      exact .cons hslot (ih hout')
    cases slot with
    | none => exact hskip hx.slot (by simpa [verifyAnchored] using hout)
    | some g =>
      cases flag with
      | false => exact hskip hx.slot (by simpa [verifyAnchored] using hout)
      | true =>
        have hg := hx.slot g rfl
        obtain ⟨b, g', hrun, hg', -⟩ := hg.verifiedFrom hx.passes.names (List.Subset.refl _) 0
        rw [← hg.order_eq] at hrun
        have hrun' : g.verified C digest = (b, g') := hrun
        have hslot : SlotOf C digest w (some g') := by
          intro g₁ hg₁
          rwa [← Option.some.inj hg₁]
        cases b with
        | true =>
          rw [verifyAnchored, hrun'] at hout
          rw [← Option.some.inj hout]
          exact .cons hslot (hslots hrest)
        | false =>
          rw [verifyAnchored, hrun'] at hout
          exact hskip hslot hout

/-- Where every signature verifies, a group that passed 7a passes 7b. -/
theorem verifyAnchored_isSome {slots : List (Option GroupVerdicts × Bool)}
    (h : List.Forall₂ (Anchors C digest) ws slots) (hall : AllVerify C digest ws)
    (hany : ∃ x ∈ slots, x.2 = true) : (verifyAnchored C digest slots).isSome := by
  induction h with
  | nil => simp at hany
  | @cons w x ws slots hx hrest ih =>
    obtain ⟨slot, flag⟩ := x
    have hskip (hflag : flag = false) : (verifyAnchored C digest slots).isSome := by
      obtain ⟨y, hy, hyflag⟩ := hany
      rcases List.mem_cons.mp hy with rfl | hy
      · rw [hflag] at hyflag
        cases hyflag
      · exact ih hall.tail ⟨y, hy, hyflag⟩
    cases flag with
    | false =>
      cases slot with
      | none => simpa [verifyAnchored] using hskip rfl
      | some g => simpa [verifyAnchored] using hskip rfl
    | true =>
      obtain ⟨g, rfl⟩ := Option.isSome_iff_exists.mp (hx.anchored rfl)
      have hg := hx.slot g rfl
      obtain ⟨b, g', hrun, -, hb⟩ := hg.verifiedFrom hx.passes.names (List.Subset.refl _) 0
      have htrue : b = true := by
        apply hb (hall w (by simp))
        rw [Nat.zero_add, hx.passes.signers_length]
        exact hx.passes.group.threshold
      rw [← hg.order_eq, htrue] at hrun
      have hrun' : g.verified C digest = (true, g') := hrun
      rw [verifyAnchored, hrun']
      rfl

/-- The groups of a header as they were walked, with their key sets. -/
def walkedGroups (groups : List HeaderGroup) (signed : List (List NamedSignature))
    (keySets : List KeySet) : List Walked :=
  ((groups.zip signed).zip keySets).map (fun t => ⟨t.1.1, t.1.2, t.2⟩)

variable (C digest) in
/-- Step 9 over one group. -/
def verifyRest (t : (Option GroupVerdicts × HeaderGroup × List NamedSignature) × KeySet) :
    Except EventDefect GroupVerdicts :=
  ((t.1.1.getD (groupVerdicts t.1.2.1 t.1.2.2 t.2)).allVerify C digest).mapError
    (fun
      | .failed index error => .signature digest t.1.2.1.role index error
      | .outsideKeySet index => .content digest (.indexOutOfRange t.1.2.1.role index))

theorem verifyRest_cases {w : Walked} {slot : Option GroupVerdicts} (hw : w.Passes)
    (hslot : SlotOf C digest w slot) :
    ((∀ s ∈ w.signers, Verifies C digest w.keys s) ∧
      ∃ g, verifyRest C digest ((slot, w.group, w.signed), w.keys) = .ok g) ∨
    ((¬ ∀ s ∈ w.signers, Verifies C digest w.keys s) ∧ ∃ role index error,
      verifyRest C digest ((slot, w.group, w.signed), w.keys) =
        .error (.signature digest role index error)) := by
  have hg : (slot.getD (groupVerdicts w.group w.signed w.keys)).Of C digest w.keys w.signers := by
    cases slot with
    | none => exact GroupVerdicts.of_new hw.names.nodup
    | some g => exact hslot g rfl
  have hrun := hg.allVerifyFrom hw.names (List.Subset.refl _)
  rw [← hg.order_eq] at hrun
  unfold verifyRest GroupVerdicts.allVerify
  dsimp only
  rcases hrun with ⟨hall, g, hok, -⟩ | ⟨hnot, index, error, herr⟩
  · exact .inl ⟨hall, g, by rw [hok]; rfl⟩
  · exact .inr ⟨hnot, _, index, error, by rw [herr]; rfl⟩

/-- Step 9 passes exactly when every signature verifies, and fails only by one that
does not. -/
theorem mapEach_verifyRest_cases (groups : List HeaderGroup) (signed : List (List NamedSignature))
    (keySets : List KeySet) (slots : List (Option GroupVerdicts))
    (h : List.Forall₂ (SlotOf C digest) (walkedGroups groups signed keySets) slots)
    (hpasses : ∀ w ∈ walkedGroups groups signed keySets, w.Passes) :
    (AllVerify C digest (walkedGroups groups signed keySets) ∧ ∃ out,
      mapEach (verifyRest C digest) ((slots.zip (groups.zip signed)).zip keySets) = .ok out) ∨
    (¬ AllVerify C digest (walkedGroups groups signed keySets) ∧ ∃ role index error,
      mapEach (verifyRest C digest) ((slots.zip (groups.zip signed)).zip keySets) =
        .error (.signature digest role index error)) := by
  -- The walk stops at the first group that fails, so the tail decides only after the head
  -- passed.
  induction groups generalizing signed keySets slots with
  | nil =>
    refine .inl ⟨by simp [AllVerify, walkedGroups], [], ?_⟩
    rw [List.zip_nil_left, List.zip_nil_right, List.zip_nil_left]
    rfl
  | cons group groups ih =>
    cases signed with
    | nil =>
      refine .inl ⟨by simp [AllVerify, walkedGroups], [], ?_⟩
      rw [List.zip_nil_right, List.zip_nil_right, List.zip_nil_left]
      rfl
    | cons s signed =>
      cases keySets with
      | nil => exact .inl ⟨by simp [AllVerify, walkedGroups], [], by rw [List.zip_nil_right]; rfl⟩
      | cons keys keySets =>
        cases h with
        | @cons _ slot _ slots hslot hrest =>
          have hws : walkedGroups (group :: groups) (s :: signed) (keys :: keySets) =
              ⟨group, s, keys⟩ :: walkedGroups groups signed keySets := rfl
          rw [hws] at hpasses ⊢
          obtain ⟨hpass, hpasses⟩ := List.forall_mem_cons.mp hpasses
          have hrun := ih signed keySets slots hrest hpasses
          rw [List.zip_cons_cons, List.zip_cons_cons, List.zip_cons_cons, mapEach]
          rcases verifyRest_cases hpass hslot with ⟨hall, g, hok⟩ | ⟨hnot, role, index, error, herr⟩
          · rw [hok]
            rcases hrun with ⟨halls, out, hout⟩ | ⟨hnot, role, index, error, herr⟩
            · refine .inl ⟨List.forall_mem_cons.mpr ⟨hall, halls⟩, g :: out, ?_⟩
              rw [hout]
              rfl
            · refine .inr ⟨fun halls => hnot halls.tail, role, index, error, ?_⟩
              rw [herr]
              rfl
          · refine .inr ⟨fun halls => hnot (halls _ (by simp)), role, index, error, ?_⟩
            rw [herr]
            rfl

/-- A key set that sub-check 7a counts against is the one step 8 assigns. -/
def Agrees (anchoring : Option KeySet) (assigned : KeySet) : Prop := ∀ keys ∈ anchoring, keys = assigned

/-- The slots sub-check 7b starts from, each with its flag of 7a. -/
def anchoredSlots (header : EventHeader) (signed : List (List NamedSignature))
    (anchoring : List (Option KeySet)) : List (Option GroupVerdicts × Bool) :=
  (((header.groups.zip signed).zip anchoring).map
    (fun ((group, signatures), keys) => keys.map (groupVerdicts group signatures))).zip
      (namedCount header anchoring)

section Slots
variable {groups : List HeaderGroup} {signed : List (List NamedSignature)}
  {anchoring : List (Option KeySet)} {keySets : List KeySet}

theorem walkedGroups_passes
    (hgroups : List.Forall₂ (fun group keys => GroupPasses keys group) groups keySets)
    (hsigned : List.Forall₂ (fun group s => s.length = group.signers.length) groups signed) :
    ∀ w ∈ walkedGroups groups signed keySets, w.Passes := by
  induction hgroups generalizing signed with
  | nil => simp [walkedGroups]
  | cons hg _ ih =>
    cases hsigned with
    | cons hs hrest => exact List.forall_mem_cons.mpr ⟨⟨hg, hs⟩, ih hrest⟩

variable (C digest) in
theorem anchors_start
    (hgroups : List.Forall₂ (fun group keys => GroupPasses keys group) groups keySets)
    (hsigned : List.Forall₂ (fun group s => s.length = group.signers.length) groups signed)
    (hagree : List.Forall₂ Agrees anchoring keySets) (header : EventHeader)
    (hheader : header.groups = groups) :
    List.Forall₂ (Anchors C digest) (walkedGroups groups signed keySets)
      (anchoredSlots header signed anchoring) := by
  unfold anchoredSlots namedCount
  rw [hheader]
  clear hheader header
  induction hgroups generalizing signed anchoring with
  | nil => exact .nil
  | @cons group keys groups keySets hg _ ih =>
    cases hsigned with
    | @cons _ s _ signed hs hsigned =>
      cases hagree with
      | @cons slot _ anchoring _ hkeys hagree =>
        have hw : Walked.Passes ⟨group, s, keys⟩ := ⟨hg, hs⟩
        refine .cons ⟨hw, ?_, ?_⟩ (ih hsigned hagree)
        · intro g hgs
          obtain ⟨keys', hkeys', rfl⟩ := Option.map_eq_some_iff.mp hgs
          obtain rfl := hkeys keys' hkeys'
          exact GroupVerdicts.of_new hw.names.nodup
        · intro hflag
          cases slot with
          | none => cases hflag
          | some keys' => rfl

/-- A group that passed 7a has its slot among them. -/
theorem named_slot {header : EventHeader}
    (hgroups : List.Forall₂ (fun group keys => GroupPasses keys group) header.groups keySets)
    (hsigned : List.Forall₂ (fun group s => s.length = group.signers.length) header.groups signed)
    (hagree : List.Forall₂ Agrees anchoring keySets)
    (hnamed : (namedCount header anchoring).any id = true) :
    ∃ x ∈ anchoredSlots header signed anchoring, x.2 = true := by
  unfold anchoredSlots
  have hlen : (namedCount header anchoring).length ≤ (((header.groups.zip signed).zip anchoring).map
      (fun ((group, signatures), keys) => keys.map (groupVerdicts group signatures))).length := by
    have hg := hgroups.length_eq
    have hs := hsigned.length_eq
    have ha := hagree.length_eq
    simp only [namedCount, List.length_map, List.length_zip]
    omega
  obtain ⟨flag, hflag, hid⟩ := List.any_eq_true.mp hnamed
  rw [← List.map_snd_zip hlen] at hflag
  obtain ⟨x, hx, rfl⟩ := List.mem_map.mp hflag
  exact ⟨x, hx, hid⟩

end Slots

end Groups

inductive FailureClass
  | illegal | copyDamage | provesNothing
  deriving DecidableEq

/-- The bytes a failing check read decide its class. -/
def EventDefect.class : EventDefect → FailureClass
  | .noSeparator | .header _ | .namedCountShort _ | .content _ _ => .illegal
  | .walk _ | .unconsumedBytes _ | .verifiedCountShort _ | .signature _ _ _ _ => .copyDamage
  | .unframed | .identifierMismatch _ | .predecessorMismatch _ => .provesNothing

section Signatures
variable (C : Crypto)

/-- The signature field of a unit reads to the unit's end, and each signature in it
verifies against its group's key set. -/
def FullySigned (read : ReadUnit) (unitLen : ℕ) (digest : Digest) (keySets : List KeySet) : Prop :=
  ∃ field, read.signatureField = .ok field ∧ unitLen ≤ field.consumed ∧
    AllVerify C digest (walkedGroups read.header.groups field.signatures keySets)

variable {C} {read : ReadUnit} {unitLen : ℕ} {digest : Digest} {anchoring : List (Option KeySet)}
  {r : Applied × EventPreimage}

theorem signatures_signed_eq : signatures C read unitLen .signed anchoring digest (.ok r) =
    (walk read unitLen).bind fun _ =>
      (require ((namedCount read.header anchoring).any id) (.namedCountShort digest)).bind fun _ =>
        (verifiedCount C read anchoring (namedCount read.header anchoring) digest).bind fun verdicts =>
          (remaining C read verdicts r.1.keySets digest).bind fun _ => .ok r := by
  obtain ⟨applied, preimage⟩ := r
  rfl

theorem verifiedCount_eq {field : SignatureField} (hfield : read.signatureField = .ok field) :
    verifiedCount C read anchoring (namedCount read.header anchoring) digest =
      okOr (verifyAnchored C digest (anchoredSlots read.header field.signatures anchoring))
        (.verifiedCountShort digest) := by
  unfold verifiedCount
  rw [hfield]
  rfl

theorem remaining_eq {field : SignatureField} (hfield : read.signatureField = .ok field)
    {verdicts : List (Option GroupVerdicts)} {keySets : List KeySet} :
    remaining C read verdicts keySets digest = mapEach (verifyRest C digest)
      ((verdicts.zip (read.header.groups.zip field.signatures)).zip keySets) := by
  unfold remaining
  rw [hfield]
  rfl

variable (C read unitLen digest) in
/-- On a unit whose content passes and whose groups name their thresholds, the signature
steps accept exactly the fully signed copies, and refuse the others as damaged. -/
theorem signatures_signed_cases
    (hgroups : List.Forall₂ (fun group keys => GroupPasses keys group) read.header.groups r.1.keySets)
    (hsigned : ∀ field, read.signatureField = .ok field → List.Forall₂
      (fun group s => s.length = group.signers.length) read.header.groups field.signatures)
    (hagree : List.Forall₂ Agrees anchoring r.1.keySets)
    (hnamed : (namedCount read.header anchoring).any id = true) :
    (FullySigned C read unitLen digest r.1.keySets ∧
      signatures C read unitLen .signed anchoring digest (.ok r) = .ok r) ∨
    (¬ FullySigned C read unitLen digest r.1.keySets ∧ ∃ e,
      signatures C read unitLen .signed anchoring digest (.ok r) = .error e ∧ e.class = .copyDamage) := by
  rw [signatures_signed_eq, hnamed]
  cases hfield : read.signatureField with
  | error e =>
    have hwalk : walk read unitLen = .error (.walk e) := by
      unfold walk
      rw [hfield]
      rfl
    rw [hwalk]
    refine .inr ⟨?_, .walk e, rfl, rfl⟩
    intro ⟨field, hok, _⟩
    rw [hfield] at hok
    cases hok
  | ok field =>
    have hfull : FullySigned C read unitLen digest r.1.keySets ↔ unitLen ≤ field.consumed ∧
        AllVerify C digest (walkedGroups read.header.groups field.signatures r.1.keySets) := by
      constructor
      · intro ⟨field', hok, hle, hall⟩
        rw [hfield, Except.ok.injEq] at hok
        exact hok ▸ ⟨hle, hall⟩
      · intro ⟨hle, hall⟩
        exact ⟨field, hfield, hle, hall⟩
    have hwalk : walk read unitLen =
        require (decide (unitLen - field.consumed = 0)) (.unconsumedBytes (unitLen - field.consumed)) := by
      unfold walk
      rw [hfield]
      rfl
    rw [hwalk, hfull]
    -- The signatures must end where the unit does, and then verify.
    by_cases hlen : unitLen ≤ field.consumed
    · have hzero : unitLen - field.consumed = 0 := by omega
      have hstart := anchors_start C digest hgroups (hsigned field hfield) hagree read.header rfl
      have hpasses := walkedGroups_passes hgroups (hsigned field hfield)
      rw [verifiedCount_eq hfield, hzero]
      -- The anchored signatures are checked first, and their results kept for the rest.
      cases hslots : verifyAnchored C digest (anchoredSlots read.header field.signatures anchoring) with
      | none =>
        refine .inr ⟨?_, .verifiedCountShort digest, rfl, rfl⟩
        intro ⟨_, hall⟩
        have hsome := verifyAnchored_isSome hstart hall (named_slot hgroups (hsigned field hfield)
          hagree hnamed)
        rw [hslots] at hsome
        cases hsome
      | some slots =>
        have hof := verifyAnchored_slots hstart hslots
        rcases mapEach_verifyRest_cases _ _ _ _ hof hpasses with
          ⟨hall, out, hrest⟩ | ⟨hnot, role, index, error, hrest⟩
        · refine .inl ⟨⟨hlen, hall⟩, ?_⟩
          change (remaining C read slots r.1.keySets digest).bind (fun _ => .ok r) = .ok r
          rw [remaining_eq hfield, hrest]
          rfl
        · refine .inr ⟨fun h => hnot h.2, .signature digest role index error, ?_, rfl⟩
          change (remaining C read slots r.1.keySets digest).bind (fun _ => .ok r) = _
          rw [remaining_eq hfield, hrest]
          rfl
    · have hpos : unitLen - field.consumed ≠ 0 := by omega
      refine .inr ⟨fun h => hlen h.1, .unconsumedBytes (unitLen - field.consumed), ?_, rfl⟩
      simp only [require, hpos, decide_false, Bool.false_eq_true, if_false]
      rfl

end Signatures

theorem checkIndices_inSet {role : SignerGroupRole} {keys : KeySet} {seen result : List UInt8}
    {signers : List NamedSigner} (h : checkIndices role keys seen signers = .ok result) :
    ∀ s ∈ signers, ∃ key, keys.keys.get s.index = some key := by
  induction signers generalizing seen with
  | nil => simp
  | cons s signers ih =>
    simp only [checkIndices, bind_ok_iff, exists_unit_iff, require_ok_iff] at h
    obtain ⟨_, hin, hrest⟩ := h
    refine List.forall_mem_cons.mpr ⟨?_, ih hrest⟩
    apply Option.ne_none_iff_exists'.mp
    intro hnone
    exact (OrderedMap.get_eq_none_iff _ _).mp hnone ((OrderedMap.contains_iff _ _).mp hin)

section Content
variable {C : Crypto} {header : EventHeader} {preimage : EventPreimage} {keySets : List KeySet}

theorem checkGroups_passes {position : Position} {root : Option InstalledRootSet}
    (h : checkGroups C position header preimage root = .ok keySets) :
    List.Forall₂ (fun group keys => GroupPasses keys group ∧
      groupKeySet C position preimage root group = .ok keys) header.groups keySets := by
  rw [checkGroups, mapEach_ok_iff] at h
  refine h.imp ?_
  intro group keys hgroup
  simp only [bind_ok_iff, exists_unit_iff, require_ok_iff, pure_ok_iff] at hgroup
  obtain ⟨_, hkeys, seen, hseen, hreach, rfl⟩ := hgroup
  obtain ⟨hlen, hnodup, -⟩ := checkIndices_ok hseen List.nodup_nil
  rw [List.length_nil, Nat.zero_add] at hlen
  refine ⟨⟨hnodup, checkIndices_inSet hseen, ?_⟩, hkeys⟩
  rw [← hlen]
  simpa [reaches] using hreach

/-- Field 8 read alone is field 8 of the whole preimage. -/
theorem readRevealedKeys_of_readEvent {fields : Bytes} {signedLen : ℕ}
    (h : readEvent fields signedLen = .ok (header, .ok preimage)) :
    readRevealedKeys fields signedLen = some preimage.revealedKeys := by
  simp only [readEvent, bind_ok_iff, Prod.exists, pure_ok_iff, Prod.mk.injEq] at h
  obtain ⟨header', rest, hheader, rfl, hbody⟩ := h
  simp only [readBody, bind_ok_iff, Prod.exists, pure_ok_iff] at hbody
  obtain ⟨keys, rest', hkeys, _, _, _, _, _, _, _, _, _, _, _, _, _, _, rfl⟩ := hbody
  simp [readRevealedKeys, hheader, hkeys, Except.toOption]

/-- The key sets sub-check 7a counts against are those the content check assigns. -/
theorem anchoringKeySets_agrees {chain : ValidatedChain} {root : Option InstalledRootSet}
    {read : ReadUnit}
    (hread : readEvent read.fields (signedLenOf read.fields) = .ok (read.header, .ok preimage))
    (h : checkGroups C (.next chain) read.header preimage root = .ok keySets) :
    List.Forall₂ Agrees (anchoringKeySets C chain read) keySets := by
  unfold anchoringKeySets
  rw [List.forall₂_map_left_iff, readRevealedKeys_of_readEvent hread]
  refine (checkGroups_passes h).imp ?_
  intro group keys ⟨_, hkeys⟩ keys' hkeys'
  cases hrole : group.role with
  | root =>
    simp only [groupKeySet, hrole, Except.ok.injEq] at hkeys
    simp only [hrole, Option.mem_some_iff] at hkeys'
    exact hkeys'.symm.trans hkeys
  | standingRoot =>
    simp only [groupKeySet, hrole, Except.ok.injEq] at hkeys
    simp only [hrole, Option.mem_some_iff] at hkeys'
    exact hkeys'.symm.trans hkeys
  | reveal =>
    simp only [hrole, Option.bind_some, Option.mem_def] at hkeys'
    simp only [groupKeySet, hrole] at hkeys
    cases hc : chain.head.commitment with
    | abandoned _ _ =>
      rw [hc] at hkeys'
      cases hkeys'
    | fixed commitment =>
      rw [hc] at hkeys hkeys'
      simp only [bind_ok_iff, exists_unit_iff, okOr_ok_iff] at hkeys
      exact Option.some.inj (hkeys'.symm.trans hkeys.2)
  | replacementRoot =>
    simp only [hrole] at hkeys'
    cases hkeys'

end Content

/-- The walk reads one signature for each signer of each group. -/
theorem walkSignatureField_ok {header : EventHeader} {field rest : Bytes}
    {signed : List (List NamedSignature)} (h : walkSignatureField header field = .ok (signed, rest)) :
    rest.length ≤ field.length ∧
      List.Forall₂ (fun group s => s.length = group.signers.length) header.groups signed := by
  obtain ⟨hall, rfl⟩ := (walkSignatureField_exact header field signed rest).mp h
  refine ⟨by simp, hall.imp ?_⟩
  intro group s hs
  rw [← List.length_map (·.index), hs.indices, HeaderGroup.signerGroup, List.length_map]

theorem prefixedBytes_length {unit b field : Bytes} (h : prefixedBytes unit 0 = some (b, field)) :
    unit.length = lengthPrefixBytes + b.length + field.length := by
  obtain ⟨-, len, hunit, -⟩ := prefixedBytes_iff.mp h
  rw [List.drop_zero] at hunit
  rw [hunit, List.length_append, List.length_append, u32Out, beBytes_length, lengthPrefixBytes,
    Nat.add_assoc]

/-- A candidate's reading with the walk of a signature field. -/
def ReadUnit.walking (read : ReadUnit) (b field : Bytes) : ReadUnit :=
  { read with
    signatureField := (walkSignatureField read.header field).map (fun (signatures, rest) =>
      ⟨signatures, lengthPrefixBytes + b.length + (field.length - rest.length)⟩) }

section Candidate
variable (C : Crypto) (chain : ValidatedChain)

/-- The signed preimage passed every step that reads no signature. -/
structure Candidate (b : Bytes) (read : ReadUnit) (preimage : EventPreimage) (applied : Applied) :
    Prop where
  decoded : decodeCandidate b = .read read
  body : read.preimage = .ok preimage
  predecessor : read.header.predecessorDigest = chain.headDigest
  named : (namedCount read.header (anchoringKeySets C chain read)).any id = true
  content : checkContent C (.next chain) read.header preimage (eventDigestOf C read.fields) =
    .ok applied

/-- A signature field carries one signature of the declared form for each named signer
and nothing more, and each verifies against its group's key set. -/
def SignedBy (header : EventHeader) (digest : Digest) (keySets : List KeySet) (field : Bytes) : Prop :=
  ∃ signed, walkSignatureField header field = .ok (signed, []) ∧
    AllVerify C digest (walkedGroups header.groups signed keySets)

variable {C chain}

theorem checkSuccessor_unsigned_iff {b : Bytes} {a : Accepted} :
    checkSuccessor C chain b .unsigned = .ok a ↔ ∃ read preimage applied,
      Candidate C chain b read preimage applied ∧
      a = Accepted.new applied read.fields (eventDigestOf C read.fields) preimage b := by
  unfold checkSuccessor
  constructor
  · intro h
    split at h
    case h_4 read hread =>
      simp only [signatures, reduceCtorEq, if_false, bind_ok_iff, exists_unit_iff, require_ok_iff,
        decide_eq_true_eq, mapError_ok_iff, Prod.exists, pure_ok_iff, Prod.mk.injEq] at h
      obtain ⟨hpred, _, _, ⟨hnamed, preimage, hbody, applied, hcontent, rfl, rfl⟩, rfl⟩ := h
      exact ⟨read, preimage, applied, ⟨hread, hbody, hpred, hnamed, hcontent⟩, rfl⟩
    all_goals simp at h
  · rintro ⟨read, preimage, applied, hc, rfl⟩
    have hread : decode b .unsigned = .read read := hc.decoded
    rw [hread]
    simp only [signatures, reduceCtorEq, if_false, bind_ok_iff, exists_unit_iff, require_ok_iff,
      decide_eq_true_eq, mapError_ok_iff, Prod.exists, pure_ok_iff, Prod.mk.injEq]
    exact ⟨hc.predecessor, applied, preimage,
      ⟨hc.named, preimage, hc.body, applied, hc.content, rfl, rfl⟩, rfl⟩

variable {b unit field : Bytes} (hunit : prefixedBytes unit 0 = some (b, field))
include hunit

/-- A unit reads as its candidate does, with the walk of its own signature field. -/
theorem decode_signed_iff {copy : ReadUnit} : decode unit .signed = .read copy ↔
    ∃ read, decodeCandidate b = .read read ∧ copy = read.walking b field := by
  have hdecode : decode unit .signed = decodePrefixed b field := by
    unfold decode decodeEvent
    rw [hunit]
  rw [hdecode, decodePrefixed_read_iff]
  constructor
  · intro ⟨hfields, hevent, hsig⟩
    refine ⟨copy.walking b [], decodePrefixed_read_iff.mpr ⟨hfields, hevent, rfl⟩, ?_⟩
    obtain ⟨_, _, _, _⟩ := copy
    dsimp only at hsig
    rw [hsig]
    rfl
  · rintro ⟨read, hread, rfl⟩
    obtain ⟨hfields, hevent, -⟩ := decodePrefixed_read_iff.mp hread
    exact ⟨hfields, hevent, rfl⟩

/-- A unit accepted with its signatures has a candidate that passes without. -/
theorem Candidate.of_signed {a : Accepted} (h : checkSuccessor C chain unit .signed = .ok a) :
    ∃ read preimage applied, Candidate C chain b read preimage applied := by
  unfold checkSuccessor at h
  split at h
  case h_4 copy hcopy =>
    obtain ⟨read, hread, rfl⟩ := (decode_signed_iff hunit).mp hcopy
    simp only [bind_ok_iff, exists_unit_iff, require_ok_iff, decide_eq_true_eq, Prod.exists,
      pure_ok_iff] at h
    obtain ⟨hpred, applied, preimage, hsig, -⟩ := h
    have hcontent := signatures_ok C hsig
    simp only [bind_ok_iff, mapError_ok_iff, pure_ok_iff, Prod.mk.injEq] at hcontent
    obtain ⟨_, hbody, _, happlied, rfl, rfl⟩ := hcontent
    have hnamed : (namedCount read.header (anchoringKeySets C chain read)).any id = true := by
      simp only [signatures, if_true, bind_ok_iff, exists_unit_iff, require_ok_iff] at hsig
      exact hsig.2.1
    exact ⟨read, _, _, hread, hbody, hpred, hnamed, happlied⟩
  all_goals simp at h

omit hunit in
theorem walking_signatureField {read : ReadUnit} {walked : SignatureField} :
    (read.walking b field).signatureField = .ok walked ↔ ∃ signed rest,
      walkSignatureField read.header field = .ok (signed, rest) ∧
      walked = ⟨signed, lengthPrefixBytes + b.length + (field.length - rest.length)⟩ := by
  unfold ReadUnit.walking
  dsimp only
  cases hwalk : walkSignatureField read.header field with
  | error e => simp [Except.map]
  | ok x =>
    obtain ⟨signed, rest⟩ := x
    simp [Except.map, eq_comm]

/-- The walk ends at the unit's end exactly when it leaves no byte of the field. -/
theorem fullySigned_iff {read : ReadUnit} {digest : Digest} {keySets : List KeySet} :
    FullySigned C (read.walking b field) unit.length digest keySets ↔
      SignedBy C read.header digest keySets field := by
  have hlen := prefixedBytes_length hunit
  constructor
  · intro ⟨walked, hwalked, hle, hall⟩
    obtain ⟨signed, rest, hwalk, rfl⟩ := walking_signatureField.mp hwalked
    obtain ⟨hrest, -⟩ := walkSignatureField_ok hwalk
    have hnil : rest = [] := by
      apply List.eq_nil_of_length_eq_zero
      dsimp only at hle
      omega
    exact ⟨signed, hnil ▸ hwalk, hall⟩
  · intro ⟨signed, hwalk, hall⟩
    refine ⟨_, walking_signatureField.mpr ⟨signed, [], hwalk, rfl⟩, ?_, hall⟩
    simp only [List.length_nil]
    omega

/-- A copy of a passing candidate is accepted exactly when it is signed in full, and
refused as damaged otherwise. -/
theorem Candidate.signed_cases {read : ReadUnit} {preimage : EventPreimage} {applied : Applied}
    (h : Candidate C chain b read preimage applied) :
    (SignedBy C read.header (eventDigestOf C read.fields) applied.keySets field ∧
      checkSuccessor C chain unit .signed =
        .ok (Accepted.new applied read.fields (eventDigestOf C read.fields) preimage unit)) ∨
    (¬ SignedBy C read.header (eventDigestOf C read.fields) applied.keySets field ∧ ∃ e,
      checkSuccessor C chain unit .signed = .error e ∧ e.class = .copyDamage) := by
  have hevent := (decodePrefixed_read_iff.mp h.decoded).2.1
  rw [h.body] at hevent
  have hgroups := (checkContent_passed C h.content).groups
  have hpasses := (checkGroups_passes hgroups).imp (fun _ _ hg => hg.1)
  have hagree := anchoringKeySets_agrees hevent hgroups
  have hsigned : ∀ walked, (read.walking b field).signatureField = .ok walked → List.Forall₂
      (fun group s => s.length = group.signers.length) read.header.groups walked.signatures := by
    intro walked hwalked
    obtain ⟨signed, rest, hwalk, rfl⟩ := walking_signatureField.mp hwalked
    exact (walkSignatureField_ok hwalk).2
  have hcheck : checkSuccessor C chain unit .signed =
      (signatures C (read.walking b field) unit.length .signed (anchoringKeySets C chain read)
        (eventDigestOf C read.fields) (.ok (applied, preimage))).bind
          (fun r => .ok (Accepted.new r.1 read.fields (eventDigestOf C read.fields) r.2 unit)) := by
    unfold checkSuccessor
    rw [(decode_signed_iff hunit).mpr ⟨read, h.decoded, rfl⟩]
    have hpred : (read.walking b field).header.predecessorDigest = chain.headDigest := h.predecessor
    have hbody : (read.walking b field).preimage = .ok preimage := h.body
    simp only [hpred, hbody, require, decide_true, if_true]
    change (signatures C (read.walking b field) unit.length .signed (anchoringKeySets C chain read)
      (eventDigestOf C read.fields) (((checkContent C (.next chain) read.header preimage
        (eventDigestOf C read.fields)).mapError (.content (eventDigestOf C read.fields))).bind
          (fun applied => .ok (applied, preimage)))).bind _ = _
    rw [h.content]
    rfl
  rw [hcheck, ← fullySigned_iff hunit]
  rcases signatures_signed_cases C (read.walking b field) unit.length (eventDigestOf C read.fields)
    (r := (applied, preimage)) hpasses hsigned hagree h.named with ⟨hf, hok⟩ | ⟨hf, e, herr, hclass⟩
  · exact .inl ⟨hf, by rw [hok]; rfl⟩
  · exact .inr ⟨hf, e, by rw [herr]; rfl, hclass⟩

end Candidate

end ScpCore.Kel
