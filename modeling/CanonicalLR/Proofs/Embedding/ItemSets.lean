import CanonicalLR.Proofs.Embedding.Grammar

/-!
# Item sets of embedded grammars

Renumbering the lookaheads of a set of items keeps their order, so the image of a set is
listed as the set is. Closure and goto of an image are the images of closure and goto,
and the symbols that an image expects stand in the same column order.

## Main definitions

* `OrdSet.image` — the image of a set.
* `ItemSet.rename` — an item set in the other numbering.

## Main results

* `toList_image` — the image under a monotone function is listed in the same order.
* `closure_rename`, `goto_rename` — closure and goto of an image.
* `inColumnOrder_expected_rename` — the symbols that an image expects.
-/

namespace CanonicalLR

/-! ## Images of sets -/

namespace OrdSet

variable {α β : Type} [Ord α] [Ord β] [Std.LawfulEqOrd β] [Std.TransOrd β]
  {f : α → β} {s t : OrdSet α} {b : β}

/-- The image of a set. -/
def image (s : OrdSet α) (f : α → β) : OrdSet β := ofList (s.toList.map f)

@[simp] theorem mem_image : b ∈ s.image f ↔ ∃ a ∈ s, f a = b := by
  unfold image
  rw [mem_ofList, List.mem_map]
  rfl

/-- The image under a monotone function is listed in the same order. -/
theorem toList_image (mono : ∀ a b, compare a b = .lt → compare (f a) (f b) = .lt) :
    (s.image f).toList = s.toList.map f := by
  refine eq_of_mem_iff (s.image f).ascending (s.ascending.map f fun {a b} => mono a b) ?_
  intro b
  rw [mem_toList, mem_image, List.mem_map]
  rfl

theorem image_injective [Std.LawfulEqOrd α] [Std.TransOrd α] (hf : Function.Injective f) :
    Function.Injective fun s : OrdSet α => s.image f := by
  intro s t heq
  apply OrdSet.ext
  intro a
  have hmem := OrdSet.ext_iff.1 heq (f a)
  simp only [mem_image] at hmem
  constructor
  · intro ha
    obtain ⟨c, hc, hfc⟩ := hmem.1 ⟨a, ha, rfl⟩
    exact hf hfc ▸ hc
  · intro ha
    obtain ⟨c, hc, hfc⟩ := hmem.2 ⟨a, ha, rfl⟩
    exact hf hfc ▸ hc

end OrdSet

/-! ## Images of item sets -/

section Order

variable {ρ : Nat → Nat} (hρ : StrictMono ρ)

include hρ

theorem compare_strictMono {a b : Nat} (h : compare a b = .lt) :
    compare (ρ a) (ρ b) = .lt := by
  rw [Nat.compare_eq_lt] at h ⊢
  exact hρ h

theorem Item.rename_injective : Function.Injective (Item.rename ρ) := by
  intro i j h
  obtain ⟨hrule, hposition, hlookahead⟩ := Item.mk.inj h
  have hlookahead := hρ.injective hlookahead
  cases i
  cases j
  simp_all

/-- Renumbering the lookaheads keeps the order of items. -/
theorem Item.compare_rename (i j : Item) (h : compare i j = .lt) :
    compare (i.rename ρ) (j.rename ρ) = .lt := by
  have heq : ∀ a b : Nat, compare (ρ a) (ρ b) = compare a b := by
    intro a b
    rcases Nat.lt_trichotomy a b with hlt | rfl | hgt
    · rw [Nat.compare_eq_lt.2 hlt, Nat.compare_eq_lt.2 (hρ hlt)]
    · rw [Nat.compare_eq_eq.2 rfl, Nat.compare_eq_eq.2 rfl]
    · rw [Nat.compare_eq_gt.2 hgt, Nat.compare_eq_gt.2 (hρ hgt)]
  rw [← h]
  show Item.order _ _ = Item.order _ _
  unfold Item.order compareLex compareOn Item.rename
  rw [heq]

end Order

/-- The set with its lookaheads renumbered. -/
def ItemSet.rename (ρ : Nat → Nat) (s : ItemSet) : ItemSet := s.image (Item.rename ρ)

theorem ItemSet.mem_rename {ρ : Nat → Nat} {s : ItemSet} {j : Item} :
    j ∈ s.rename ρ ↔ ∃ i ∈ s, i.rename ρ = j :=
  OrdSet.mem_image

theorem ItemSet.rename_injective {ρ : Nat → Nat} (hρ : StrictMono ρ) :
    Function.Injective (ItemSet.rename ρ) :=
  OrdSet.image_injective (Item.rename_injective hρ)

theorem ItemSet.toList_rename {ρ : Nat → Nat} (hρ : StrictMono ρ) (s : ItemSet) :
    (s.rename ρ).toList = s.toList.map (Item.rename ρ) :=
  OrdSet.toList_image (Item.compare_rename hρ)

namespace Grammar.Embeds

variable {ρ : Nat → Nat} {g h : Grammar} {s : ItemSet} {i j : Item} {symbol : Nat}
  (he : Embeds ρ g h) (hs : ∀ i ∈ s, i ∈ g.items)

include he

theorem kernel_rename : ItemSet.kernel.rename ρ = ItemSet.kernel := by
  apply OrdSet.ext
  intro j
  rw [ItemSet.mem_rename]
  unfold ItemSet.kernel
  simp only [OrdSet.mem_ofList, List.mem_singleton, exists_eq_left]
  unfold Item.rename
  simp only [he.end_eq, eq_comm]

include hs

/-- What a set spawns is in the other numbering what its image spawns. -/
theorem spawned_rename_iff :
    (s.rename ρ).Spawned h j ↔ ∃ i, s.Spawned g i ∧ i.rename ρ = j := by
  have hitems : ∀ {i : Item}, s.Spawned g i → i ∈ g.items := fun hi =>
    he.isAugmented.mem_items_of_mem_closure hs ((ItemSet.mem_closure he.isAugmented).2 hi)
  constructor
  · intro hj
    induction hj with
    | base mem =>
        obtain ⟨i, hi, rfl⟩ := ItemSet.mem_rename.1 mem
        exact ⟨i, .base hi, rfl⟩
    | @spawn _ r l _ rule spawns ih =>
        obtain ⟨i, hi, rfl⟩ := ih
        obtain ⟨symbol, l, hspawns, hlhs, rfl⟩ := (he.spawns_rename_iff (hitems hi)).1 spawns
        have hlt := he.lt_size_of_symbol? (hitems hi) hspawns.expected
        obtain ⟨q, hq, rfl⟩ := he.exists_rule hlt r rule hlhs
        have heq : q.lhs = symbol := he.strictMono.injective hlhs
        exact ⟨⟨q.id, 0, l⟩, .spawn hi hq (heq ▸ hspawns), rfl⟩
  · rintro ⟨i, hi, rfl⟩
    induction hi with
    | base mem => exact .base (ItemSet.mem_rename.2 ⟨_, mem, rfl⟩)
    | @spawn i r l earlier rule spawns ih =>
        have hspawns := (he.spawns_rename_iff (hitems earlier)).2
          ⟨r.lhs, l, spawns, rfl, rfl⟩
        exact .spawn (r := r.rename ρ) ih (he.rename_mem_rules rule) hspawns

/-- **The closure of an image** is the image of the closure. -/
theorem closure_rename :
    (s.rename ρ).closure h h.first = ItemSet.rename ρ (s.closure g g.first) := by
  apply OrdSet.ext
  intro j
  rw [ItemSet.mem_closure he.isAugmented', he.spawned_rename_iff hs, ItemSet.mem_rename]
  simp only [ItemSet.mem_closure he.isAugmented]

theorem mem_expected_rename_iff {other : Nat} :
    other ∈ (s.rename ρ).expected h ↔ ∃ symbol ∈ s.expected g, ρ symbol = other := by
  simp only [ItemSet.mem_expected, ItemSet.mem_rename]
  constructor
  · rintro ⟨j, ⟨i, hi, rfl⟩, hexp⟩
    rw [he.symbol?_rename (hs i hi)] at hexp
    obtain ⟨symbol, hexp', heq⟩ := Option.map_eq_some_iff.1 hexp
    exact ⟨symbol, ⟨i, hi, hexp'⟩, heq⟩
  · rintro ⟨symbol, ⟨i, hi, hexp⟩, rfl⟩
    refine ⟨i.rename ρ, ⟨i, hi, rfl⟩, ?_⟩
    rw [he.symbol?_rename (hs i hi), hexp]
    rfl

theorem advance_rename :
    (s.rename ρ).advance h (ρ symbol) = ItemSet.rename ρ (s.advance g symbol) := by
  apply OrdSet.ext
  intro j
  rw [he.isAugmented'.mem_advance_iff, ItemSet.mem_rename]
  simp only [he.isAugmented.mem_advance_iff, ItemSet.mem_rename]
  constructor
  · rintro ⟨k, ⟨i, hi, rfl⟩, hexp, rfl⟩
    rw [he.symbol?_rename (hs i hi)] at hexp
    obtain ⟨other, hexp', heq⟩ := Option.map_eq_some_iff.1 hexp
    rw [he.strictMono.injective heq] at hexp'
    exact ⟨i.moved, ⟨i, hi, hexp', rfl⟩, rfl⟩
  · rintro ⟨k, ⟨i, hi, hexp, rfl⟩, rfl⟩
    refine ⟨i.rename ρ, ⟨i, hi, rfl⟩, ?_, rfl⟩
    rw [he.symbol?_rename (hs i hi), hexp]
    rfl

/-- **The goto of an image** is the image of the goto. -/
theorem goto_rename :
    (s.rename ρ).goto h h.first (ρ symbol) = ItemSet.rename ρ (s.goto g g.first symbol) := by
  unfold ItemSet.goto
  rw [he.advance_rename hs]
  apply he.closure_rename
  intro j hj
  obtain ⟨i, hi, hexp, rfl⟩ := he.isAugmented.mem_advance_iff.1 hj
  exact he.isAugmented.moved_mem_items (hs i hi) hexp

/-- **The symbols that an image expects** stand in the same column order. -/
theorem inColumnOrder_expected_rename :
    h.inColumnOrder ((s.rename ρ).expected h) = (g.inColumnOrder (s.expected g)).map ρ := by
  have hlist : ((s.rename ρ).expected h).toList = (s.expected g).toList.map ρ := by
    rw [← OrdSet.toList_image fun a b => compare_strictMono he.strictMono]
    congr 1
    apply OrdSet.ext
    intro other
    rw [he.mem_expected_rename_iff hs, OrdSet.mem_image]
  have hkind : ∀ symbol ∈ (s.expected g).toList,
      h.symbols.kind? (ρ symbol) = g.symbols.kind? symbol := by
    intro symbol hmem
    obtain ⟨i, hi, hexp⟩ := ItemSet.mem_expected.1 (OrdSet.mem_toList.1 hmem)
    exact he.kind?_eq (he.lt_size_of_symbol? (hs i hi) hexp)
  have hfilter : ∀ kind : SymbolKind,
      ((s.expected g).toList.map ρ).filter (fun other => h.symbols.kind? other = some kind)
        = ((s.expected g).toList.filter fun symbol =>
            g.symbols.kind? symbol = some kind).map ρ := by
    intro kind
    rw [List.filter_map]
    congr 1
    apply List.filter_congr
    intro symbol hmem
    simp only [Function.comp_apply, hkind symbol hmem]
  unfold inColumnOrder
  simp only [hlist, hfilter, List.map_append]

end Grammar.Embeds

end CanonicalLR
