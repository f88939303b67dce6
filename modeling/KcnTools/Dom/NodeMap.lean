import KcnTools.Cache.CacheCore
import KcnTools.Lib.Run
import KcnTools.Protocol.ProtocolTable
import Mathlib

/-! The attribute maps of elements (dom/node.c): they are kept sorted by name, and both the place
of a new attribute and the attribute of a name are found by bisection. -/

namespace KcnTools.Dom

open Cache (wrapInt)
open Protocols (cTolower cStrncasecmp)

def domStringCasecmp (string1 string2 : List UInt8) : Int :=
  let length := min (wrapInt string1.length) (wrapInt string2.length)
  let stringDiff := cStrncasecmp string1 string2 (length % 2 ^ 64).toNat
  if stringDiff ≠ 0 then stringDiff else wrapInt (string1.length - string2.length)

/-- A name with the case of its letters removed. Names are in the order of these lists. -/
def nameKey (name : List UInt8) : List Nat := name.map fun c => (cTolower c).toNat

def PartAtNul (first second : List UInt8) : Prop :=
  ∃ front back front' back', first = front ++ 0 :: back ∧ second = front' ++ 0 :: back' ∧
    nameKey front = nameKey front' ∧ nameKey back ≠ nameKey back'

theorem not_partAtNul_of_noNul {first second : List UInt8} (noNul : 0 ∉ first ∨ 0 ∉ second) :
    ¬PartAtNul first second := by
  rintro ⟨front, back, front', back', rfl, rfl, _⟩
  simp at noNul

theorem cTolower_eq_zero {c : UInt8} : cTolower c = 0 ↔ c = 0 := by
  rw [cTolower]
  split
  next upper =>
    simp only [Bool.and_eq_true, decide_eq_true_eq, UInt8.le_iff_toNat_le] at upper
    have bounds : 65 ≤ c.toNat ∧ c.toNat ≤ 90 := upper
    constructor
    · intro zero
      have value := congrArg UInt8.toNat zero
      rw [UInt8.toNat_add] at value
      have small : (c.toNat + 32) % 256 = 0 := value
      omega
    · rintro rfl
      exact absurd bounds.1 (by decide)
  next => rfl

theorem PartAtNul.cons {first second : List UInt8} {c d : UInt8} (same : cTolower c = cTolower d)
    (parts : PartAtNul first second) : PartAtNul (c :: first) (d :: second) := by
  obtain ⟨front, back, front', back', rfl, rfl, agree, differ⟩ := parts
  refine ⟨c :: front, back, d :: front', back', rfl, rfl, ?_, differ⟩
  rw [nameKey, List.map_cons, same]
  exact congrArg _ agree

theorem casecmp_order (first second : List UInt8) (whole : ¬PartAtNul first second) :
    let difference := cStrncasecmp first second (min first.length second.length)
    let order : Int := if difference ≠ 0 then difference else first.length - second.length
    order < 0 ∧ nameKey first < nameKey second ∨ order = 0 ∧ nameKey first = nameKey second ∨
      0 < order ∧ nameKey second < nameKey first := by
  induction first generalizing second with
  | nil =>
      cases second with
      | nil => exact Or.inr (Or.inl ⟨rfl, rfl⟩)
      | cons d second =>
          refine Or.inl ⟨?_, List.nil_lt_cons _ _⟩
          rw [List.length_nil, Nat.zero_min, cStrncasecmp, if_neg (not_not_intro rfl), List.length_cons]
          omega
  | cons c first ih =>
      cases second with
      | nil =>
          refine Or.inr (Or.inr ⟨?_, List.nil_lt_cons _ _⟩)
          rw [List.length_nil, Nat.min_zero, cStrncasecmp, if_neg (not_not_intro rfl), List.length_cons]
          omega
      | cons d second =>
          have rest : ¬PartAtNul first second ∨ cTolower c ≠ cTolower d := by
            by_cases same : cTolower c = cTolower d
            · exact Or.inl fun parts => whole (parts.cons same)
            · exact Or.inr same
          have step : cStrncasecmp (c :: first) (d :: second) (min (c :: first).length (d :: second).length) =
              if cTolower c ≠ cTolower d then if cTolower c < cTolower d then -1 else 1
              else if cTolower c = 0 then 0 else cStrncasecmp first second (min first.length second.length) := by
            rw [List.length_cons, List.length_cons, Nat.succ_min_succ, cStrncasecmp]
            rfl
          dsimp only
          rw [step, nameKey, nameKey, List.map_cons, List.map_cons, List.cons_lt_cons_iff, List.cons_lt_cons_iff,
            ← UInt8.lt_iff_toNat_lt, ← UInt8.lt_iff_toNat_lt, UInt8.toNat_inj, UInt8.toNat_inj]
          by_cases same : cTolower c = cTolower d
          · rw [if_neg (not_not_intro same)]
            by_cases nul : cTolower c = 0
            · have keys : nameKey first = nameKey second := by
                by_contra differ
                rw [cTolower_eq_zero] at nul
                have nul' : d = 0 := cTolower_eq_zero.mp (by rw [← same, nul]; rfl)
                exact whole ⟨[], first, [], second, by rw [nul]; rfl, by rw [nul']; rfl, rfl, differ⟩
              have lengths : first.length = second.length := by
                have counts := congrArg List.length keys
                rwa [nameKey, nameKey, List.length_map, List.length_map] at counts
              refine Or.inr (Or.inl ⟨?_, ?_⟩)
              · rw [if_pos nul, if_neg (not_not_intro rfl), List.length_cons, List.length_cons, lengths]
                omega
              · rw [same]
                exact congrArg _ keys
            · have counts : ((c :: first).length : Int) - (d :: second).length = first.length - second.length := by
                rw [List.length_cons, List.length_cons]
                omega
              have order := ih second (rest.resolve_right (not_not_intro same))
              dsimp only at order
              rw [if_neg nul, counts, same]
              have same' : ¬cTolower d < cTolower d := UInt8.lt_irrefl _
              simp only [same', false_or, true_and, List.cons.injEq]
              exact order
          · rw [if_pos same]
            rcases UInt8.lt_or_lt_of_ne same with less | more
            · rw [if_pos less]
              exact Or.inl ⟨by simp, Or.inl less⟩
            · rw [if_neg (UInt8.not_lt.mpr (UInt8.le_of_lt more))]
              exact Or.inr (Or.inr ⟨by simp, Or.inl more⟩)

/-- Names of these lengths fit in an `int`, as the documents do that they are parts of. -/
def intSize : Nat := 2 ^ 31

theorem domStringCasecmp_eq {first second : List UInt8} (small : first.length < intSize)
    (small' : second.length < intSize) : domStringCasecmp first second =
      let difference := cStrncasecmp first second (min first.length second.length)
      if difference ≠ 0 then difference else (first.length : Int) - second.length := by
  have bound : (first.length : Int) < 2 ^ 31 := by exact_mod_cast small
  have bound' : (second.length : Int) < 2 ^ 31 := by exact_mod_cast small'
  have count : (min (wrapInt first.length) (wrapInt second.length) % 2 ^ 64).toNat =
      min first.length second.length := by
    simp only [wrapInt]
    omega
  have difference : wrapInt (first.length - second.length) = (first.length : Int) - second.length := by
    simp only [wrapInt]
    omega
  unfold domStringCasecmp
  dsimp only
  rw [count, difference]

theorem domStringCasecmp_order {first second : List UInt8} (small : first.length < intSize)
    (small' : second.length < intSize) (whole : ¬PartAtNul first second) :
    domStringCasecmp first second < 0 ∧ nameKey first < nameKey second ∨
      domStringCasecmp first second = 0 ∧ nameKey first = nameKey second ∨
      0 < domStringCasecmp first second ∧ nameKey second < nameKey first := by
  rw [domStringCasecmp_eq small small']
  exact casecmp_order first second whole

/-! The bisection. -/

/-- An attribute node: `type` is 0 for a name that the DTD does not have, and `serial` stands for its address. -/
structure Attribute where
  name : List UInt8
  type : Nat
  serial : Nat
  deriving DecidableEq

def domNodeCasecmp (node1 node2 : Attribute) : Int :=
  if node1.type ≠ 0 ∧ node2.type ≠ 0 then (node1.type : Int) - node2.type
  else domStringCasecmp node1.name node2.name

inductive Search where
  | found (pos : Nat)
  | missing (upper : Nat)
  deriving DecidableEq

/-- The loop of `dom_node_list_bsearch` with its bounds `from` and `to`. A position outside the list is `none`. -/
def bsearchLoop (difference : Attribute → Int) (list : List Attribute) : Nat → Int → Int → Option Search
  | 0, _, _ => none
  | fuel + 1, lower, upper =>
      let pos := lower + (upper - lower).tdiv 2
      match Buffer.get list pos with
      | none => none
      | some node =>
          if difference node = 0 then some (.found pos.toNat)
          else
            let lower := if difference node < 0 then lower else pos
            let upper := if difference node < 0 then pos else upper
            if lower + 1 < upper then bsearchLoop difference list fuel lower upper
            else some (.missing upper.toNat)

def domNodeListBsearch (key : Attribute) (list : List Attribute) : Option Search :=
  bsearchLoop (domNodeCasecmp key) list (list.length + 1) (-1) list.length

def getDomNodeMapIndex (list : List Attribute) (node : Attribute) : Option Nat :=
  (domNodeListBsearch node list).map fun search =>
    match search with
    | .found pos => pos
    | .missing upper => upper

def getDomNodeMapEntry (list : List Attribute) (subtype : Nat) (name : List UInt8) : Option (Option Attribute) :=
  (domNodeListBsearch ⟨name, subtype, 0⟩ list).map fun search =>
    match search with
    | .found pos => list[pos]?
    | .missing _ => none

def Located (difference : Attribute → Int) (list : List Attribute) : Search → Prop
  | .found pos => ∃ node, list[pos]? = some node ∧ difference node = 0
  | .missing upper => upper ≤ list.length ∧ (∀ node ∈ list.take upper, 0 < difference node) ∧
      ∀ node ∈ list.drop upper, difference node < 0

/-- What is before an entry that the key follows, the key follows too, and in the same way behind it. -/
def Ascends (difference : Attribute → Int) (list : List Attribute) : Prop :=
  list.Pairwise fun earlier later =>
    (0 < difference later → 0 < difference earlier) ∧ (difference earlier < 0 → difference later < 0)

theorem Ascends.before {difference : Attribute → Int} {list : List Attribute} (ascends : Ascends difference list)
    {pos : Nat} {node : Attribute} (here : list[pos]? = some node) (after : 0 < difference node) :
    ∀ other ∈ list.take (pos + 1), 0 < difference other := by
  intro other member
  obtain ⟨index, inside, found⟩ := List.mem_take_iff_getElem.mp member
  obtain ⟨bound, value⟩ := List.getElem?_eq_some_iff.mp here
  rcases Nat.lt_or_ge index pos with earlier | last
  · rw [← found]
    exact (List.pairwise_iff_getElem.mp ascends index pos (by omega) bound earlier).1 (by rwa [value])
  · obtain rfl : index = pos := by omega
    rwa [← found, value]

theorem Ascends.behind {difference : Attribute → Int} {list : List Attribute} (ascends : Ascends difference list)
    {pos : Nat} {node : Attribute} (here : list[pos]? = some node) (before : difference node < 0) :
    ∀ other ∈ list.drop pos, difference other < 0 := by
  intro other member
  obtain ⟨index, inside, found⟩ := List.mem_drop_iff_getElem.mp member
  obtain ⟨bound, value⟩ := List.getElem?_eq_some_iff.mp here
  cases index with
  | zero =>
      rw [← found]
      simpa [value] using before
  | succ index =>
      rw [← found]
      exact (List.pairwise_iff_getElem.mp ascends pos (pos + (index + 1)) bound (by omega) (by omega)).2 (by rwa [value])

theorem bsearchLoop_located {difference : Attribute → Int} {list : List Attribute}
    (ascends : Ascends difference list) {fuel : Nat} {lower : Int} {upper : Nat}
    (start : -1 ≤ lower) (inside : upper ≤ list.length) (room : lower + 1 < upper)
    (before : ∀ node ∈ list.take (lower + 1).toNat, 0 < difference node)
    (behind : ∀ node ∈ list.drop upper, difference node < 0) (enough : upper - lower ≤ fuel) :
    ∃ search, bsearchLoop difference list fuel lower upper = some search ∧ Located difference list search := by
  induction fuel generalizing lower upper with
  | zero => omega
  | succ fuel ih =>
      obtain ⟨pos, place⟩ : ∃ pos : Nat, lower + ((upper : Int) - lower).tdiv 2 = pos := by
        refine ⟨(lower + ((upper : Int) - lower).tdiv 2).toNat, ?_⟩
        rw [Int.toNat_of_nonneg]
        rw [Int.tdiv_eq_ediv_of_nonneg (by omega)]
        omega
      have between : lower < pos ∧ (pos : Int) < upper := by
        rw [Int.tdiv_eq_ediv_of_nonneg (by omega)] at place
        omega
      have bound : pos < list.length := by omega
      have here : list[pos]? = some list[pos] := List.getElem?_eq_getElem bound
      have read : Buffer.get list pos = some list[pos] := by
        rw [Buffer.get, if_pos (Int.natCast_nonneg pos), Int.toNat_natCast, here]
      rw [bsearchLoop, place]
      dsimp only
      rw [read]
      dsimp only
      by_cases same : difference list[pos] = 0
      · rw [if_pos same]
        exact ⟨_, rfl, list[pos], here, same⟩
      · rw [if_neg same]
        by_cases less : difference list[pos] < 0
        · have later := ascends.behind here less
          rw [if_pos less, if_pos less]
          by_cases more : lower + 1 < (pos : Int)
          · rw [if_pos more]
            exact ih start (by omega) more before later (by omega)
          · rw [if_neg more]
            refine ⟨_, rfl, by omega, ?_, by simpa using later⟩
            have last : (lower + 1).toNat = pos := by omega
            rw [last] at before
            simpa using before
        · have earlier := ascends.before here (by omega)
          rw [if_neg less, if_neg less]
          by_cases more : (pos : Int) + 1 < upper
          · rw [if_pos more]
            exact ih (by omega) inside more (by simpa using earlier) behind (by omega)
          · rw [if_neg more]
            have last : upper = pos + 1 := by omega
            refine ⟨_, rfl, inside, ?_, by simpa using behind⟩
            rw [last]
            simpa using earlier

theorem domNodeListBsearch_located {key : Attribute} {list : List Attribute}
    (ascends : Ascends (domNodeCasecmp key) list) (nonempty : list ≠ []) :
    ∃ search, domNodeListBsearch key list = some search ∧ Located (domNodeCasecmp key) list search := by
  have some := List.length_pos_iff.mpr nonempty
  exact bsearchLoop_located ascends (by omega) (Nat.le_refl _) (by omega) (by simp) (by simp) (by omega)

theorem domNodeListBsearch_nil (key : Attribute) : domNodeListBsearch key [] = none := rfl

/-! The map of one element. The positions of `dom_node_list_bsearch` are of type `int`, so a map has
fewer than 2^31 attributes. -/

structure AttributeMap where
  list : Option (List Attribute)
  serials : Nat

def AttributeMap.entries (map : AttributeMap) : List Attribute := map.list.getD []

inductive MapEvent where
  | add (name : List UInt8)
  | setType (serial : Nat)
  | remove (serial : Nat)

def addToDomNodeList (list : List Attribute) (node : Attribute) (position : Int) : List Attribute :=
  if position < 0 then list ++ [node]
  else list.take position.toNat ++ node :: list.drop position.toNat

/-- `del_from_dom_node_list`. The entry that moves to the place of a deleted one is not looked at. -/
def delFromDomNodeList (serial : Nat) : List Attribute → List Attribute
  | [] => []
  | [entry] => if entry.serial ≠ serial then [entry] else []
  | entry :: moved :: list =>
      if entry.serial ≠ serial then entry :: delFromDomNodeList serial (moved :: list)
      else moved :: delFromDomNodeList serial list

def addDomAttribute (map : AttributeMap) (name : List UInt8) : Option AttributeMap :=
  let node : Attribute := ⟨name, 0, map.serials⟩
  let index : Option Int := if map.entries = [] then some (-1) else (getDomNodeMapIndex map.entries node).map Int.ofNat
  index.map fun index => ⟨some (addToDomNodeList map.entries node index), map.serials + 1⟩

def mapStep (types : List UInt8 → Nat) (map : AttributeMap) : MapEvent → Option AttributeMap
  | .add name => addDomAttribute map name
  | .setType serial =>
      some { map with list := map.list.map fun list => list.map fun node =>
        if node.serial = serial then { node with type := types node.name } else node }
  | .remove serial => some { map with list := map.list.map (delFromDomNodeList serial) }

def presentStep (present : Nat × List (Nat × List UInt8)) : MapEvent → Nat × List (Nat × List UInt8)
  | .add name => (present.1 + 1, present.2 ++ [(present.1, name)])
  | .setType _ => present
  | .remove serial => (present.1, present.2.filter fun entry => entry.1 != serial)

def presentAttributes (events : List MapEvent) : List (Nat × List UInt8) := (events.foldl presentStep (0, [])).2

def InNameOrder (types : List UInt8 → Nat) : Prop :=
  ∀ first second, types first ≠ 0 → types second ≠ 0 →
    (types first < types second ↔ nameKey first < nameKey second)

def Searchable (list : List Attribute) (name : List UInt8) : Prop :=
  name.length < intSize ∧ ∀ node ∈ list, ¬PartAtNul name node.name

def Admits (map : AttributeMap) : MapEvent → Prop
  | .add name => Searchable map.entries name
  | _ => True

structure SortedMap (types : List UInt8 → Nat) (map : AttributeMap) : Prop where
  sorted : map.entries.Pairwise fun first second => nameKey first.name ≤ nameKey second.name
  typed : ∀ node ∈ map.entries, node.type = 0 ∨ node.type = types node.name
  small : ∀ node ∈ map.entries, node.name.length < intSize
  serials : (map.entries.map Attribute.serial).Nodup
  fresh : ∀ node ∈ map.entries, node.serial < map.serials

variable {types : List UInt8 → Nat}

theorem SortedMap.initial : SortedMap types ⟨none, 0⟩ := ⟨List.Pairwise.nil, by simp [AttributeMap.entries],
  by simp [AttributeMap.entries], List.nodup_nil, by simp [AttributeMap.entries]⟩

/-- The comparison of a name, with or without its type, follows the order of names. -/
theorem domNodeCasecmp_order (ordered : InNameOrder types) {key node : Attribute}
    (keyType : key.type = 0 ∨ key.type = types key.name) (nodeType : node.type = 0 ∨ node.type = types node.name)
    (small : key.name.length < intSize) (small' : node.name.length < intSize)
    (whole : ¬PartAtNul key.name node.name) :
    domNodeCasecmp key node < 0 ∧ nameKey key.name < nameKey node.name ∨
      domNodeCasecmp key node = 0 ∧ nameKey key.name = nameKey node.name ∨
      0 < domNodeCasecmp key node ∧ nameKey node.name < nameKey key.name := by
  rw [domNodeCasecmp]
  split
  next known =>
    have keyType := keyType.resolve_left known.1
    have nodeType := nodeType.resolve_left known.2
    rw [keyType, nodeType] at known ⊢
    have less := ordered key.name node.name known.1 known.2
    have more := ordered node.name key.name known.2 known.1
    rcases Nat.lt_trichotomy (types key.name) (types node.name) with below | same | above
    · exact Or.inl ⟨by omega, less.mp below⟩
    · refine Or.inr (Or.inl ⟨by omega, ?_⟩)
      apply le_antisymm
      · exact not_lt.mp fun wrong => absurd (more.mpr wrong) (by omega)
      · exact not_lt.mp fun wrong => absurd (less.mpr wrong) (by omega)
    · exact Or.inr (Or.inr ⟨by omega, more.mp above⟩)
  next => exact domStringCasecmp_order small small' whole

theorem SortedMap.ascends (ordered : InNameOrder types) {map : AttributeMap} (kept : SortedMap types map)
    {key : Attribute} (keyType : key.type = 0 ∨ key.type = types key.name)
    (searchable : Searchable map.entries key.name) : Ascends (domNodeCasecmp key) map.entries := by
  have order : ∀ node ∈ map.entries, _ := fun node member =>
    domNodeCasecmp_order ordered keyType (kept.typed node member) searchable.1 (kept.small node member)
      (searchable.2 node member)
  refine List.Pairwise.imp_of_mem ?_ kept.sorted
  intro earlier later here there sorted
  constructor
  · intro after
    rcases order later there with ⟨less, _⟩ | ⟨same, _⟩ | ⟨_, above⟩
    · omega
    · omega
    · rcases order earlier here with ⟨_, below⟩ | ⟨_, same⟩ | ⟨more, _⟩
      · exact absurd (lt_of_le_of_lt sorted above) (lt_asymm below)
      · exact absurd (lt_of_le_of_lt sorted above) (same ▸ lt_irrefl _)
      · exact more
  · intro before
    rcases order earlier here with ⟨_, below⟩ | ⟨same, _⟩ | ⟨more, _⟩
    · rcases order later there with ⟨less, _⟩ | ⟨_, same⟩ | ⟨_, above⟩
      · exact less
      · exact absurd (lt_of_lt_of_le below sorted) (same ▸ lt_irrefl _)
      · exact absurd (lt_of_lt_of_le below sorted) (lt_asymm above)
    · omega
    · omega

/-- Where a new attribute goes: behind what it follows and before what follows it. -/
theorem getDomNodeMapIndex_sorted (ordered : InNameOrder types) {map : AttributeMap} (kept : SortedMap types map)
    {key : Attribute} (keyType : key.type = 0 ∨ key.type = types key.name)
    (searchable : Searchable map.entries key.name) (nonempty : map.entries ≠ []) :
    ∃ index, getDomNodeMapIndex map.entries key = some index ∧
      (∀ node ∈ map.entries.take index, nameKey node.name ≤ nameKey key.name) ∧
      ∀ node ∈ map.entries.drop index, nameKey key.name ≤ nameKey node.name := by
  have order : ∀ node ∈ map.entries, _ := fun node member =>
    domNodeCasecmp_order ordered keyType (kept.typed node member) searchable.1 (kept.small node member)
      (searchable.2 node member)
  obtain ⟨search, found, located⟩ := domNodeListBsearch_located (kept.ascends ordered keyType searchable) nonempty
  rw [getDomNodeMapIndex, found]
  refine ⟨_, rfl, ?_⟩
  cases search with
  | found pos =>
      obtain ⟨node, here, same⟩ := located
      obtain ⟨bound, value⟩ := List.getElem?_eq_some_iff.mp here
      have equal : nameKey key.name = nameKey node.name := by
        rcases order node (List.mem_of_getElem? here) with ⟨less, _⟩ | ⟨_, equal⟩ | ⟨more, _⟩
        · omega
        · exact equal
        · omega
      dsimp only
      rw [equal]
      constructor
      · intro other member
        obtain ⟨index, inside, element⟩ := List.mem_take_iff_getElem.mp member
        rw [← element, ← value]
        exact List.pairwise_iff_getElem.mp kept.sorted index pos (by omega) bound (by omega)
      · intro other member
        obtain ⟨index, inside, element⟩ := List.mem_drop_iff_getElem.mp member
        rw [← element, ← value]
        cases index with
        | zero => simp
        | succ index => exact List.pairwise_iff_getElem.mp kept.sorted pos (pos + (index + 1)) bound (by omega) (by omega)
  | missing upper =>
      obtain ⟨_, before, behind⟩ := located
      constructor
      · intro other member
        rcases order other (List.mem_of_mem_take member) with ⟨less, _⟩ | ⟨_, equal⟩ | ⟨_, above⟩
        · exact absurd (before other member) (by omega)
        · exact le_of_eq equal.symm
        · exact le_of_lt above
      · intro other member
        rcases order other (List.mem_of_mem_drop member) with ⟨_, below⟩ | ⟨_, equal⟩ | ⟨more, _⟩
        · exact le_of_lt below
        · exact le_of_eq equal
        · exact absurd (behind other member) (by omega)

theorem addToDomNodeList_perm (list : List Attribute) (node : Attribute) (position : Int) :
    (addToDomNodeList list node position).Perm (node :: list) := by
  rw [addToDomNodeList]
  split
  · exact List.perm_append_singleton node list
  · have moved := @List.perm_middle _ node (list.take position.toNat) (list.drop position.toNat)
    rwa [List.take_append_drop] at moved

theorem addToDomNodeList_sorted {list : List Attribute} {node : Attribute} {index : Nat}
    (sorted : list.Pairwise fun first second => nameKey first.name ≤ nameKey second.name)
    (before : ∀ other ∈ list.take index, nameKey other.name ≤ nameKey node.name)
    (behind : ∀ other ∈ list.drop index, nameKey node.name ≤ nameKey other.name) :
    (addToDomNodeList list node index).Pairwise fun first second => nameKey first.name ≤ nameKey second.name := by
  rw [addToDomNodeList, if_neg (by omega), Int.toNat_natCast, List.pairwise_append]
  refine ⟨sorted.sublist (List.take_sublist _ _), List.pairwise_cons.mpr ⟨behind, sorted.sublist (List.drop_sublist _ _)⟩, ?_⟩
  intro first member second other
  rcases List.mem_cons.mp other with rfl | other
  · exact before first member
  · exact le_trans (before first member) (behind second other)

def AttributeMap.listed (map : AttributeMap) : List (Nat × List UInt8) :=
  map.entries.map fun node => (node.serial, node.name)

theorem addDomAttribute_spec (ordered : InNameOrder types) {map : AttributeMap} (kept : SortedMap types map)
    {name : List UInt8} (searchable : Searchable map.entries name) :
    ∃ next, addDomAttribute map name = some next ∧ SortedMap types next ∧ next.serials = map.serials + 1 ∧
      next.listed.Perm (map.listed ++ [(map.serials, name)]) := by
  obtain ⟨index, found, sorted⟩ : ∃ index : Int,
      (if map.entries = [] then some (-1) else (getDomNodeMapIndex map.entries ⟨name, 0, map.serials⟩).map Int.ofNat) =
        some index ∧
      (addToDomNodeList map.entries ⟨name, 0, map.serials⟩ index).Pairwise
        fun first second => nameKey first.name ≤ nameKey second.name := by
    by_cases empty : map.entries = []
    · refine ⟨-1, if_pos empty, ?_⟩
      rw [empty]
      exact List.pairwise_singleton _ _
    · obtain ⟨index, found, before, behind⟩ :=
        @getDomNodeMapIndex_sorted _ ordered map kept ⟨name, 0, map.serials⟩ (Or.inl rfl) searchable empty
      refine ⟨index, ?_, addToDomNodeList_sorted kept.sorted before behind⟩
      rw [if_neg empty, found]
      rfl
  have moved := addToDomNodeList_perm map.entries ⟨name, 0, map.serials⟩ index
  refine ⟨⟨some (addToDomNodeList map.entries ⟨name, 0, map.serials⟩ index), map.serials + 1⟩, ?_,
    ⟨sorted, ?_, ?_, ?_, ?_⟩, rfl, ?_⟩
  · rw [addDomAttribute, found]
    rfl
  · intro node member
    rcases List.mem_cons.mp (moved.mem_iff.mp member) with rfl | old
    · exact Or.inl rfl
    · exact kept.typed node old
  · intro node member
    rcases List.mem_cons.mp (moved.mem_iff.mp member) with rfl | old
    · exact searchable.1
    · exact kept.small node old
  · have serials := moved.map Attribute.serial
    refine serials.nodup_iff.mpr (List.nodup_cons.mpr ⟨?_, kept.serials⟩)
    intro member
    obtain ⟨node, old, same⟩ := List.mem_map.mp member
    exact absurd (kept.fresh node old) (by rw [same]; exact Nat.lt_irrefl _)
  · intro node member
    rcases List.mem_cons.mp (moved.mem_iff.mp member) with rfl | old
    · exact Nat.lt_succ_self _
    · exact Nat.lt_succ_of_lt (kept.fresh node old)
  · exact (moved.map _).trans (List.perm_append_singleton _ _).symm

theorem delFromDomNodeList_other {serial : Nat} {entry : Attribute} (other : entry.serial ≠ serial)
    (list : List Attribute) : delFromDomNodeList serial (entry :: list) = entry :: delFromDomNodeList serial list := by
  cases list with
  | nil => simp [delFromDomNodeList, other]
  | cons moved list => rw [delFromDomNodeList, if_pos other]

theorem delFromDomNodeList_absent {serial : Nat} {list : List Attribute}
    (absent : serial ∉ list.map Attribute.serial) : delFromDomNodeList serial list = list := by
  induction list with
  | nil => rw [delFromDomNodeList]
  | cons entry list ih =>
      rw [List.map_cons, List.mem_cons, not_or] at absent
      rw [delFromDomNodeList_other (Ne.symm absent.1), ih absent.2]

theorem delFromDomNodeList_eq {list : List Attribute} (serials : (list.map Attribute.serial).Nodup) (serial : Nat) :
    delFromDomNodeList serial list = list.filter fun entry => entry.serial != serial := by
  induction list with
  | nil => rw [delFromDomNodeList, List.filter_nil]
  | cons entry list ih =>
      rw [List.map_cons, List.nodup_cons] at serials
      by_cases same : entry.serial = serial
      · have absent : serial ∉ list.map Attribute.serial := same ▸ serials.1
        have filtered : (list.filter fun entry => entry.serial != serial) = list := by
          rw [List.filter_eq_self]
          intro other member
          rw [bne_iff_ne]
          rintro rfl
          exact absent (List.mem_map_of_mem member)
        rw [List.filter_cons_of_neg (by simpa using same), filtered]
        cases list with
        | nil => rw [delFromDomNodeList, if_neg (not_not_intro same)]
        | cons moved list =>
            rw [List.map_cons, List.mem_cons, not_or] at absent
            rw [delFromDomNodeList, if_neg (not_not_intro same), delFromDomNodeList_absent absent.2]
      · rw [List.filter_cons_of_pos (by simpa using same), delFromDomNodeList_other same, ih serials.2]

theorem mapStep_spec (ordered : InNameOrder types) {map : AttributeMap} (kept : SortedMap types map)
    {event : MapEvent} (admits : Admits map event) {present : List (Nat × List UInt8)}
    (listed : map.listed.Perm present) :
    ∃ next, mapStep types map event = some next ∧ SortedMap types next ∧
      next.serials = (presentStep (map.serials, present) event).1 ∧
      next.listed.Perm (presentStep (map.serials, present) event).2 := by
  cases event with
  | add name =>
      obtain ⟨next, added, sorted, serials, perm⟩ := addDomAttribute_spec ordered kept admits
      exact ⟨next, added, sorted, serials, perm.trans (listed.append_right _)⟩
  | setType serial =>
      have entries : ∀ list : Option (List Attribute), AttributeMap.entries ⟨list.map fun list => list.map fun node =>
          if node.serial = serial then { node with type := types node.name } else node, map.serials⟩ =
          (list.getD []).map fun node =>
            if node.serial = serial then { node with type := types node.name } else node := by
        intro list
        cases list <;> rfl
      have name (node : Attribute) :
          (if node.serial = serial then { node with type := types node.name } else node).name = node.name := by
        split <;> rfl
      have number (node : Attribute) :
          (if node.serial = serial then { node with type := types node.name } else node).serial = node.serial := by
        split <;> rfl
      refine ⟨_, rfl, ⟨?_, ?_, ?_, ?_, ?_⟩, rfl, ?_⟩
      · rw [entries, List.pairwise_map]
        simp only [name]
        exact kept.sorted
      · rw [entries, List.forall_mem_map]
        intro node member
        split
        · exact Or.inr rfl
        · exact kept.typed node member
      · rw [entries, List.forall_mem_map]
        simp only [name]
        exact kept.small
      · rw [entries, List.map_map]
        simp only [Function.comp_def, number]
        exact kept.serials
      · rw [entries, List.forall_mem_map]
        simp only [number]
        exact kept.fresh
      · rw [AttributeMap.listed, entries, List.map_map]
        simp only [Function.comp_def, number, name]
        exact listed
  | remove serial =>
      have entries : AttributeMap.entries ⟨map.list.map (delFromDomNodeList serial), map.serials⟩ =
          map.entries.filter fun entry => entry.serial != serial := by
        rw [← delFromDomNodeList_eq kept.serials, AttributeMap.entries, AttributeMap.entries]
        cases map.list <;> rfl
      have part : List.Sublist _ map.entries := List.filter_sublist (p := fun entry => entry.serial != serial)
      refine ⟨_, rfl, ⟨?_, ?_, ?_, ?_, ?_⟩, rfl, ?_⟩
      · rw [entries]
        exact kept.sorted.sublist part
      · rw [entries]
        exact fun node member => kept.typed node (part.subset member)
      · rw [entries]
        exact fun node member => kept.small node (part.subset member)
      · rw [entries]
        exact kept.serials.sublist (part.map _)
      · rw [entries]
        exact fun node member => kept.fresh node (part.subset member)
      · rw [AttributeMap.listed, entries]
        have filtered := listed.filter fun entry => entry.1 != serial
        rw [AttributeMap.listed, List.filter_map] at filtered
        exact filtered

theorem run_sorted (ordered : InNameOrder types) {map : AttributeMap} (kept : SortedMap types map)
    {events : List MapEvent} (admitted : Run.Admitted (mapStep types) Admits map events)
    {present : List (Nat × List UInt8)} (listed : map.listed.Perm present) :
    ∃ final, Run.run (mapStep types) map events = some final ∧ SortedMap types final ∧
      final.listed.Perm (events.foldl presentStep (map.serials, present)).2 := by
  induction events generalizing map present with
  | nil => exact ⟨map, rfl, kept, listed⟩
  | cons event events ih =>
      obtain ⟨next, stepped, sorted, serials, perm⟩ := mapStep_spec ordered kept admitted.1 listed
      obtain ⟨final, reached, ends, whole⟩ := ih sorted (admitted.2 next stepped) perm
      refine ⟨final, by rw [Run.run_cons, stepped]; exact reached, ends, ?_⟩
      rw [serials] at whole
      exact whole

theorem getDomNodeMapEntry_spec (ordered : InNameOrder types) {map : AttributeMap} (kept : SortedMap types map)
    (nonempty : map.entries ≠ []) {name : List UInt8} {subtype : Nat} (ownType : subtype = 0 ∨ subtype = types name)
    (searchable : Searchable map.entries name) :
    ∃ found, getDomNodeMapEntry map.entries subtype name = some found ∧
      match found with
      | some node => node ∈ map.entries ∧ nameKey node.name = nameKey name
      | none => ∀ node ∈ map.entries, nameKey node.name ≠ nameKey name := by
  have order : ∀ node ∈ map.entries, _ := fun node member =>
    @domNodeCasecmp_order _ ordered ⟨name, subtype, 0⟩ node ownType (kept.typed node member) searchable.1
      (kept.small node member) (searchable.2 node member)
  obtain ⟨search, found, located⟩ := domNodeListBsearch_located
    (@SortedMap.ascends _ ordered map kept ⟨name, subtype, 0⟩ ownType searchable) nonempty
  rw [getDomNodeMapEntry, found]
  cases search with
  | found pos =>
      obtain ⟨node, here, same⟩ := located
      refine ⟨some node, by simpa using here, List.mem_of_getElem? here, ?_⟩
      rcases order node (List.mem_of_getElem? here) with ⟨less, _⟩ | ⟨_, equal⟩ | ⟨more, _⟩
      · omega
      · exact equal.symm
      · omega
  | missing upper =>
      obtain ⟨_, before, behind⟩ := located
      refine ⟨none, rfl, ?_⟩
      intro node member
      have differs : domNodeCasecmp ⟨name, subtype, 0⟩ node ≠ 0 := by
        have split : node ∈ map.entries.take upper ++ map.entries.drop upper := by rwa [List.take_append_drop]
        rcases List.mem_append.mp split with earlier | later
        · exact Int.ne_of_gt (before node earlier)
        · exact Int.ne_of_lt (behind node later)
      rcases order node member with ⟨_, below⟩ | ⟨same, _⟩ | ⟨_, above⟩
      · exact below.ne'
      · exact absurd same differs
      · exact above.ne

theorem searchable_of_noNul {list : List Attribute} {name : List UInt8} (small : name.length < intSize)
    (noNul : 0 ∉ name) : Searchable list name :=
  ⟨small, fun _ _ => not_partAtNul_of_noNul (Or.inl noNul)⟩

/-- The map of an element after any calls, and what a look-up in it comes to. -/
theorem attributeMap_run (ordered : InNameOrder types) {events : List MapEvent}
    (admitted : Run.Admitted (mapStep types) Admits ⟨none, 0⟩ events) :
    ∃ map, Run.run (mapStep types) ⟨none, 0⟩ events = some map ∧ map.listed.Perm (presentAttributes events) ∧
      (map.entries.Pairwise fun first second => nameKey first.name ≤ nameKey second.name) ∧
      ∀ name subtype, subtype = 0 ∨ subtype = types name → Searchable map.entries name →
        ((∃ found, getDomNodeMapEntry map.entries subtype name = some found ∧
          match found with
          | some node => node ∈ map.entries ∧ nameKey node.name = nameKey name
          | none => ∀ node ∈ map.entries, nameKey node.name ≠ nameKey name) ↔ map.entries ≠ []) := by
  obtain ⟨map, reached, kept, listed⟩ := run_sorted ordered SortedMap.initial admitted (List.Perm.refl _)
  refine ⟨map, reached, listed, kept.sorted, ?_⟩
  intro name subtype ownType searchable
  constructor
  · rintro ⟨found, read, _⟩ empty
    rw [empty, getDomNodeMapEntry, domNodeListBsearch_nil] at read
    cases read
  · intro nonempty
    exact getDomNodeMapEntry_spec ordered kept nonempty ownType searchable

/-- Behind "b" and "A" the name "a" is looked up. -/
theorem attributeMap_run_two :
    ∃ map node, Run.run (mapStep fun _ => 0) ⟨none, 0⟩ [.add [98], .add [65]] = some map ∧
      map.listed.Perm [(0, [98]), (1, [65])] ∧ getDomNodeMapEntry map.entries 0 [97] = some (some node) ∧
        nameKey node.name = nameKey [97] := by
  have ordered : InNameOrder fun _ => 0 := fun _ _ known _ => absurd rfl known
  have admits : ∀ event ∈ [MapEvent.add [98], .add [65]], ∀ map, Admits map event := by
    intro event member map
    simp only [List.mem_cons, List.not_mem_nil, or_false] at member
    rcases member with rfl | rfl <;> exact searchable_of_noNul (by decide) (by decide)
  obtain ⟨map, reached, listed, _, lookUp⟩ := attributeMap_run ordered (Run.admitted_of_inputs admits _)
  have present : (1, [65]) ∈ map.listed := listed.mem_iff.mpr (by decide)
  obtain ⟨letter, member, same⟩ := List.mem_map.mp present
  obtain ⟨found, read, meaning⟩ := (lookUp [97] 0 (.inl rfl) (searchable_of_noNul (by decide) (by decide))).mpr
    (List.ne_nil_of_mem member)
  cases found with
  | none =>
      refine absurd ?_ (meaning letter member)
      rw [(Prod.mk.inj same).2]
      decide
  | some node => exact ⟨map, node, reached, listed, read, meaning.2⟩

/-- The only attribute is removed, and the look-up reads before the first entry. -/
theorem attributeMap_emptied :
    (Run.run (mapStep fun _ => 0) ⟨none, 0⟩ [.add [97], .remove 0]).map
      (fun map => (map.list, getDomNodeMapEntry map.entries 0 [97])) = some (some [], none) := by
  decide

end KcnTools.Dom
