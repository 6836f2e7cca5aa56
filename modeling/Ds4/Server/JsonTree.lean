import Ds4.Server.JsonText

/-!
# The tree of a value

`Denotes n w v` says which tree the text of a value stands for: its strings as `json_string` returns them, its
numbers and words as they are spelled, items and members in their order. A text has one tree, and the minifier
does not change it.
-/

namespace Ds4
open C

inductive JsonTree
  | str (s : Bytes)
  | lit (w : Bytes)
  | obj (members : List (Bytes × JsonTree))
  | arr (items : List JsonTree)

section
variable {β : Type}

/-- Items as in `Seq`, each with what it stands for. -/
inductive SeqOf (close : UInt8) (D : Bytes → β → Prop) : Bytes → List β → Prop
  | last {a v b : Bytes} {x : β} : Space a → D v x → Space b → SeqOf close D (a ++ (v ++ (b ++ [close]))) [x]
  | more {a v b s : Bytes} {x : β} {xs : List β} : Space a → D v x → Space b → SeqOf close D s xs →
      SeqOf close D (a ++ (v ++ (b ++ ch ',' :: s))) (x :: xs)

inductive GroupOf (opn close : UInt8) (D : Bytes → β → Prop) : Bytes → List β → Prop
  | empty {a : Bytes} : Space a → GroupOf opn close D (opn :: (a ++ [close])) []
  | seq {s : Bytes} {xs : List β} : SeqOf close D s xs → GroupOf opn close D (opn :: s) xs

/-- The body of a literal that `json_string` reads as `s`. -/
structure StringOf (k s : Bytes) : Prop where
  body : StrBody k
  read : ∀ r, jsonString (ch '"' :: (k ++ ch '"' :: r)) = some (s, r)

inductive MemberOf (D : Bytes → β → Prop) : Bytes → Bytes × β → Prop
  | intro {k key a b v : Bytes} {x : β} : StringOf k key → Space a → Space b → D v x →
      MemberOf D (ch '"' :: (k ++ ch '"' :: (a ++ ch ':' :: (b ++ v)))) (key, x)

end

inductive AtomOf : Bytes → JsonTree → Prop
  | str {k s : Bytes} : StringOf k s → AtomOf (ch '"' :: (k ++ [ch '"'])) (.str s)
  | word {w : Bytes} : w ∈ [lit "true", lit "false", lit "null"] → AtomOf w (.lit w)
  | num {w : Bytes} : isNumeral w = true → AtomOf w (.lit w)

/-- The tree of a value with at most `n` levels of nesting. -/
def Denotes : Nat → Bytes → JsonTree → Prop
  | 0, w, v => AtomOf w v
  | n + 1, w, v => AtomOf w v ∨
      (∃ ms, v = .obj ms ∧ GroupOf (ch '\x7b') (ch '\x7d') (MemberOf (Denotes n)) w ms) ∨
      ∃ xs, v = .arr xs ∧ GroupOf (ch '[') (ch ']') (Denotes n) w xs

/-! ## Every value has a tree -/

section
variable {β : Type} {D : Bytes → β → Prop} {I : Bytes → Prop} {opn close : UInt8}

theorem Seq.exists_of (hI : ∀ w, I w → ∃ x, D w x) {s : Bytes} (h : Seq close I s) : ∃ xs, SeqOf close D s xs := by
  induction h with
  | last ha hv hb =>
    obtain ⟨x, hx⟩ := hI _ hv
    exact ⟨[x], .last ha hx hb⟩
  | more ha hv hb _ ih =>
    obtain ⟨x, hx⟩ := hI _ hv
    obtain ⟨xs, hxs⟩ := ih
    exact ⟨x :: xs, .more ha hx hb hxs⟩

theorem Group.exists_of (hI : ∀ w, I w → ∃ x, D w x) {w : Bytes} (h : Group opn close I w) :
    ∃ xs, GroupOf opn close D w xs := by
  cases h with
  | empty ha => exact ⟨[], .empty ha⟩
  | seq hs =>
    obtain ⟨xs, hxs⟩ := hs.exists_of hI
    exact ⟨xs, .seq hxs⟩

theorem StrBody.exists_of {k : Bytes} (hk : StrBody k) : ∃ s, StringOf k s := by
  obtain ⟨s, hs⟩ := jsonString_read Space.nil hk
  exact ⟨s, hk, hs⟩

theorem Member.exists_of (hI : ∀ w, I w → ∃ x, D w x) (w : Bytes) (h : Member I w) : ∃ m, MemberOf D w m := by
  obtain ⟨hk, ha, hb, hv⟩ := h
  obtain ⟨key, hkey⟩ := hk.exists_of
  obtain ⟨x, hx⟩ := hI _ hv
  exact ⟨(key, x), .intro hkey ha hb hx⟩

end

theorem Atom.exists_of {w : Bytes} (h : Atom w) : ∃ v, AtomOf w v := by
  cases h with
  | str hk =>
    obtain ⟨s, hs⟩ := hk.exists_of
    exact ⟨_, .str hs⟩
  | word hw => exact ⟨_, .word hw⟩
  | num hw => exact ⟨_, .num hw⟩

theorem Val.exists_denotes {n : Nat} {w : Bytes} (h : Val n w) : ∃ v, Denotes n w v := by
  induction n generalizing w with
  | zero => exact Atom.exists_of h
  | succ n ih =>
    rcases h with h | h | h
    · obtain ⟨v, hv⟩ := Atom.exists_of h
      exact ⟨v, .inl hv⟩
    · obtain ⟨ms, hms⟩ := h.exists_of (Member.exists_of fun w hw => ih hw)
      exact ⟨_, .inr (.inl ⟨ms, rfl, hms⟩)⟩
    · obtain ⟨xs, hxs⟩ := h.exists_of fun w hw => ih hw
      exact ⟨_, .inr (.inr ⟨xs, rfl, hxs⟩)⟩

/-! ## Trees are of values -/

section
variable {β : Type} {D : Bytes → β → Prop} {I : Bytes → Prop} {opn close : UInt8}

theorem SeqOf.seq (hD : ∀ w x, D w x → I w) {s : Bytes} {xs : List β} (h : SeqOf close D s xs) : Seq close I s := by
  induction h with
  | last ha hv hb => exact .last ha (hD _ _ hv) hb
  | more ha hv hb _ ih => exact .more ha (hD _ _ hv) hb ih

theorem GroupOf.group (hD : ∀ w x, D w x → I w) {w : Bytes} {xs : List β} (h : GroupOf opn close D w xs) :
    Group opn close I w := by
  cases h with
  | empty ha => exact .empty ha
  | seq hs => exact .seq (hs.seq hD)

theorem MemberOf.member (hD : ∀ w x, D w x → I w) (w : Bytes) (m : Bytes × β) (h : MemberOf D w m) :
    Member I w := by
  obtain ⟨hk, ha, hb, hv⟩ := h
  exact .intro hk.body ha hb (hD _ _ hv)

end

theorem AtomOf.atom {w : Bytes} {v : JsonTree} (h : AtomOf w v) : Atom w := by
  cases h with
  | str hk => exact .str hk.body
  | word hw => exact .word hw
  | num hw => exact .num hw

theorem Denotes.val {n : Nat} {w : Bytes} {v : JsonTree} (h : Denotes n w v) : Val n w := by
  induction n generalizing w v with
  | zero => exact AtomOf.atom h
  | succ n ih =>
    rcases h with h | ⟨ms, -, h⟩ | ⟨xs, -, h⟩
    · exact .inl h.atom
    · exact .inr (.inl (h.group (MemberOf.member fun _ _ hw => ih hw)))
    · exact .inr (.inr (h.group fun _ _ hw => ih hw))

/-! ## A text has one tree -/

/-- An item and what follows it are determined by the text. -/
theorem item_unique {f : Reader} {I : Bytes → Prop} (hf : f.Complete I) (hI : Headed I) {a a' v v' r r' : Bytes}
    (ha : Space a) (ha' : Space a') (hv : I v) (hv' : I v') (hr : Stops r) (hr' : Stops r')
    (h : a ++ (v ++ r) = a' ++ (v' ++ r')) : v = v' ∧ r = r' := by
  have hrest : r = r' := by
    have h₁ := hf ha hv hr
    rw [h, hf ha' hv' hr'] at h₁
    exact (Option.some.inj h₁).symm
  subst hrest
  rw [← List.append_assoc, ← List.append_assoc, List.append_cancel_right_eq] at h
  have hskip : ∀ {v}, I v → skipSpace v = v := fun hv => by
    obtain ⟨c, t, rfl, hc, -⟩ := hI hv
    exact skipSpace_cons_of_not hc
  have heq := congrArg skipSpace h
  rw [skipSpace_append ha, skipSpace_append ha', hskip hv, hskip hv'] at heq
  exact ⟨heq, rfl⟩

section
variable {β : Type} {D : Bytes → β → Prop} {I : Bytes → Prop} {opn close : UInt8} {f : Reader}

theorem SeqOf.unique (hf : f.Complete I) (hI : Headed I) (hD : ∀ w x, D w x → I w)
    (huniq : ∀ w x y, D w x → D w y → x = y) (hcl : close = ch ']' ∨ close = ch '\x7d') {s t : Bytes}
    {xs ys : List β} (h : SeqOf close D s xs) (h' : SeqOf close D t ys) (hst : s = t) : xs = ys := by
  have hclose : isspace close = false ∧ numChar close = false ∧ close ≠ ch ',' := by
    rcases hcl with rfl | rfl
    · decide
    · decide
  have hcomma : isspace (ch ',') = false ∧ numChar (ch ',') = false := by decide
  have hstops : ∀ {b : Bytes} {c : UInt8} {r : Bytes}, Space b → numChar c = false → Stops (b ++ c :: r) :=
    fun hb hc => stops_space hb (stops_cons hc)
  -- behind an item stands the closing byte or a comma, not both
  have hend : ∀ {b b' : Bytes} {s}, Space b → Space b' → b ++ [close] ≠ b' ++ ch ',' :: s := fun hb hb' heq => by
    have := congrArg skipSpace heq
    rw [skipSpace_append hb, skipSpace_append hb', skipSpace_cons_of_not hclose.1,
      skipSpace_cons_of_not hcomma.1] at this
    exact hclose.2.2 (List.cons.inj this).1
  induction h generalizing t ys with
  | last ha hv hb =>
    cases h' with
    | last ha' hv' hb' =>
      obtain ⟨rfl, -⟩ := item_unique hf hI ha ha' (hD _ _ hv) (hD _ _ hv') (hstops hb hclose.2.1)
        (hstops hb' hclose.2.1) hst
      rw [huniq _ _ _ hv hv']
    | more ha' hv' hb' hs' =>
      obtain ⟨-, heq⟩ := item_unique hf hI ha ha' (hD _ _ hv) (hD _ _ hv') (hstops hb hclose.2.1)
        (hstops hb' hcomma.2) hst
      exact absurd heq (hend hb hb')
  | more ha hv hb hs ih =>
    cases h' with
    | last ha' hv' hb' =>
      obtain ⟨-, heq⟩ := item_unique hf hI ha ha' (hD _ _ hv) (hD _ _ hv') (hstops hb hcomma.2)
        (hstops hb' hclose.2.1) hst
      exact absurd heq.symm (hend hb' hb)
    | more ha' hv' hb' hs' =>
      obtain ⟨rfl, heq⟩ := item_unique hf hI ha ha' (hD _ _ hv) (hD _ _ hv') (hstops hb hcomma.2)
        (hstops hb' hcomma.2) hst
      have hskip := congrArg skipSpace heq
      rw [skipSpace_append hb, skipSpace_append hb', skipSpace_cons_of_not hcomma.1,
        skipSpace_cons_of_not hcomma.1] at hskip
      rw [huniq _ _ _ hv hv', ih hs' (List.cons.inj hskip).2]

theorem GroupOf.unique (hf : f.Complete I) (hI : Headed I) (hD : ∀ w x, D w x → I w)
    (huniq : ∀ w x y, D w x → D w y → x = y) (hcl : close = ch ']' ∨ close = ch '\x7d') {w : Bytes}
    {xs ys : List β} (h : GroupOf opn close D w xs) (h' : GroupOf opn close D w ys) : xs = ys := by
  have hclose : isspace close = false := by
    rcases hcl with rfl | rfl
    · decide
    · decide
  -- an empty group is not one with items
  have hempty : ∀ {a s : Bytes} {zs : List β}, Space a → SeqOf close D s zs → a ++ [close] ≠ s := fun ha hs heq => by
    obtain ⟨c, t, hc, h1, h2, -⟩ := (hs.seq hD).skipSpace (r := []) hI
    rw [List.append_nil, ← heq, skipSpace_append ha, skipSpace_cons_of_not hclose] at hc
    have := (List.cons.inj hc).1
    rcases hcl with rfl | rfl
    · exact h1 this.symm
    · exact h2 this.symm
  generalize hw : w = w' at h'
  cases h with
  | empty ha =>
    cases h' with
    | empty ha' => rfl
    | seq hs' => exact absurd (List.cons.inj hw).2 (hempty ha hs')
  | seq hs =>
    cases h' with
    | empty ha' => exact absurd (List.cons.inj hw).2.symm (hempty ha' hs)
    | seq hs' => exact hs.unique hf hI hD huniq hcl hs' (List.cons.inj hw).2

theorem MemberOf.unique (hI : Headed I) (hD : ∀ w x, D w x → I w) (huniq : ∀ w x y, D w x → D w y → x = y)
    (w : Bytes) (m m' : Bytes × β) (h : MemberOf D w m) (h' : MemberOf D w m') : m = m' := by
  generalize hw : w = w' at h'
  obtain ⟨hk, ha, hb, hv⟩ := h
  obtain ⟨hk', ha', hb', hv'⟩ := h'
  have hread := hk.read
  have hkey := (hk.read _).symm.trans ((congrArg jsonString hw).trans (hk'.read _))
  obtain ⟨rfl, hrest⟩ := Prod.mk.inj (Option.some.inj hkey)
  have hcolon := congrArg skipSpace hrest
  rw [skipSpace_append ha, skipSpace_append ha', skipSpace_cons_of_not (by decide),
    skipSpace_cons_of_not (by decide)] at hcolon
  have hval := congrArg skipSpace (List.cons.inj hcolon).2
  obtain ⟨c, t, rfl, hc, -⟩ := hI (hD _ _ hv)
  obtain ⟨c', t', rfl, hc', -⟩ := hI (hD _ _ hv')
  rw [skipSpace_append hb, skipSpace_append hb', skipSpace_cons_of_not hc, skipSpace_cons_of_not hc'] at hval
  rw [hval] at hv
  rw [huniq _ _ _ hv hv']

end

/-- A text that starts with a quote is no word and no numeral. -/
theorem AtomOf.lit_head {w : Bytes} (h : w ∈ [lit "true", lit "false", lit "null"] ∨ isNumeral w = true) :
    w.head? ≠ some (ch '"') := by
  rcases h with h | h
  · exact (by decide : ∀ w ∈ [lit "true", lit "false", lit "null"], w.head? ≠ some (ch '"')) w h
  · cases w with
    | nil => exact nofun
    | cons c w => exact fun hc => (isNumeral_head h).1 (Option.some.inj hc)

theorem AtomOf.unique {w : Bytes} {v v' : JsonTree} (h : AtomOf w v) (h' : AtomOf w v') : v = v' := by
  generalize hw : w = w' at h'
  cases h with
  | str hk =>
    cases h' with
    | str hk' =>
      have := (hk.read []).symm.trans ((congrArg jsonString hw).trans (hk'.read []))
      rw [(Prod.mk.inj (Option.some.inj this)).1]
    | word hw' => exact absurd (hw ▸ rfl) (AtomOf.lit_head (.inl hw'))
    | num hw' => exact absurd (hw ▸ rfl) (AtomOf.lit_head (.inr hw'))
  | word hw₁ =>
    cases h' with
    | str hk' => exact absurd (hw ▸ rfl) (AtomOf.lit_head (.inl hw₁))
    | word => rw [hw]
    | num => rw [hw]
  | num hw₁ =>
    cases h' with
    | str hk' => exact absurd (hw ▸ rfl) (AtomOf.lit_head (.inr hw₁))
    | word => rw [hw]
    | num => rw [hw]

theorem GroupOf.head {opn close : UInt8} {β : Type} {D : Bytes → β → Prop} {w : Bytes} {xs : List β}
    (h : GroupOf opn close D w xs) : w.head? = some opn := by
  cases h with
  | empty => rfl
  | seq => rfl

/-- An atom does not open a group. -/
theorem AtomOf.head {w : Bytes} {v : JsonTree} (h : AtomOf w v) :
    w.head? ≠ some (ch '\x7b') ∧ w.head? ≠ some (ch '[') := by
  cases h with
  | str =>
    exact ⟨fun h => absurd (Option.some.inj h) (by decide), fun h => absurd (Option.some.inj h) (by decide)⟩
  | word hw =>
    exact (by decide : ∀ w ∈ [lit "true", lit "false", lit "null"],
      w.head? ≠ some (ch '\x7b') ∧ w.head? ≠ some (ch '[')) w hw
  | num hw =>
    cases w with
    | nil => exact ⟨nofun, nofun⟩
    | cons c w =>
      obtain ⟨-, h1, h2, -⟩ := isNumeral_head hw
      exact ⟨fun hc => h1 (Option.some.inj hc), fun hc => h2 (Option.some.inj hc)⟩

theorem Denotes.unique {n : Nat} {w : Bytes} {v v' : JsonTree} (h : Denotes n w v) (h' : Denotes n w v') :
    v = v' := by
  induction n generalizing w v v' with
  | zero => exact AtomOf.unique h h'
  | succ n ih =>
    have hval : ∀ w x, Denotes n w x → Val n w := fun _ _ hw => hw.val
    have huniq : ∀ w x y, Denotes n w x → Denotes n w y → x = y := fun _ _ _ => ih
    have hdiff : ∀ {ms : List (Bytes × JsonTree)} {xs : List JsonTree},
        GroupOf (ch '\x7b') (ch '\x7d') (MemberOf (Denotes n)) w ms →
        GroupOf (ch '[') (ch ']') (Denotes n) w xs → False := fun h h' =>
      absurd (h.head.symm.trans h'.head) (by decide)
    rcases h with h | ⟨ms, rfl, h⟩ | ⟨xs, rfl, h⟩
    · rcases h' with h' | ⟨ms', rfl, h'⟩ | ⟨xs', rfl, h'⟩
      · exact h.unique h'
      · exact absurd h'.head h.head.1
      · exact absurd h'.head h.head.2
    · rcases h' with h' | ⟨ms', rfl, h'⟩ | ⟨xs', rfl, h'⟩
      · exact absurd h.head h'.head.1
      · rw [h.unique Val.read.member Member.headed (MemberOf.member hval) (MemberOf.unique Val.headed hval huniq)
          (.inr rfl) h']
      · exact (hdiff h h').elim
    · rcases h' with h' | ⟨ms', rfl, h'⟩ | ⟨xs', rfl, h'⟩
      · exact absurd h.head h'.head.2
      · exact (hdiff h' h).elim
      · rw [h.unique Val.read Val.headed hval huniq (.inl rfl) h']

/-! ## Minifying -/

/-- Minified items stand for the same. -/
def KeepsTree {β : Type} (D : Bytes → β → Prop) : Prop := ∀ w x, D w x → ∃ w', Minifies w w' ∧ D w' x

section
variable {β : Type} {D : Bytes → β → Prop} {opn close : UInt8}

theorem SeqOf.minify (hD : KeepsTree D) (hclose : Minifies [close] [close]) {s : Bytes} {xs : List β}
    (h : SeqOf close D s xs) : ∃ s', Minifies s s' ∧ SeqOf close D s' xs := by
  induction h with
  | last ha hv hb =>
    obtain ⟨v', hm, hv'⟩ := hD _ _ hv
    exact ⟨_, (Minifies.space ha).append (hm.append ((Minifies.space hb).append hclose)),
      .last .nil hv' .nil⟩
  | @more a v b s x xs ha hv hb _ ih =>
    obtain ⟨v', hm, hv'⟩ := hD _ _ hv
    obtain ⟨s', hs', hseq⟩ := ih
    have hcomma : Minifies ([ch ','] ++ s) ([ch ','] ++ s') := (Minifies.byte (by decide) (by decide)).append hs'
    exact ⟨_, (Minifies.space ha).append (hm.append ((Minifies.space hb).append hcomma)),
      .more .nil hv' .nil hseq⟩

theorem GroupOf.minify (hD : KeepsTree D) (ho : Minifies [opn] [opn]) (hclose : Minifies [close] [close]) {w : Bytes}
    {xs : List β} (h : GroupOf opn close D w xs) : ∃ w', Minifies w w' ∧ GroupOf opn close D w' xs := by
  cases h with
  | empty ha => exact ⟨_, ho.append ((Minifies.space ha).append hclose), .empty Space.nil⟩
  | seq hs =>
    obtain ⟨s', hs', hseq⟩ := hs.minify hD hclose
    exact ⟨_, ho.append hs', .seq hseq⟩

theorem KeepsTree.member (hD : KeepsTree D) : KeepsTree (MemberOf D) := fun w m h => by
  obtain ⟨hk, ha, hb, hv⟩ := h
  obtain ⟨v', hm, hv'⟩ := hD _ _ hv
  have hcolon := (Minifies.byte (c := ch ':') (by decide) (by decide)).append ((Minifies.space hb).append hm)
  have hkey := (Minifies.str hk.body).append ((Minifies.space ha).append hcolon)
  refine ⟨_, ?_, .intro hk .nil .nil hv'⟩
  simpa using hkey

end

theorem AtomOf.keeps : KeepsTree AtomOf := fun w _ h => ⟨w, h.atom.minifies, h⟩

theorem Denotes.keeps {n : Nat} : KeepsTree (Denotes n) := by
  induction n with
  | zero => exact AtomOf.keeps
  | succ n ih =>
    rintro w v (h | ⟨ms, rfl, h⟩ | ⟨xs, rfl, h⟩)
    · obtain ⟨w', hm, hw'⟩ := AtomOf.keeps w v h
      exact ⟨w', hm, .inl hw'⟩
    · obtain ⟨w', hm, hw'⟩ := h.minify (KeepsTree.member ih) (.byte (by decide) (by decide))
        (.byte (by decide) (by decide))
      exact ⟨w', hm, .inr (.inl ⟨ms, rfl, hw'⟩)⟩
    · obtain ⟨w', hm, hw'⟩ := h.minify ih (.byte (by decide) (by decide)) (.byte (by decide) (by decide))
      exact ⟨w', hm, .inr (.inr ⟨xs, rfl, hw'⟩)⟩

theorem jsonSkipLevel_skipSpace (inner : Option Reader) (p : Bytes) :
    (jsonSkipLevel inner).read (skipSpace p) = (jsonSkipLevel inner).read p := by
  simp only [jsonSkipLevel, skipSpace_idem]

theorem jsonSkipValue_skipSpace (p : Bytes) : jsonSkipValue (skipSpace p) = jsonSkipValue p :=
  jsonSkipLevel_skipSpace _ p

/-- What the reader accepts is minified to a value with the same tree. -/
theorem jsonMinifyRawValue_spec {p q : Bytes} (h : jsonSkipValue p = some q) :
    ∃ w v, jsonRawValue p = some (w, q) ∧ (∀ x, Denotes jsonMaxNesting w x ↔ x = v) ∧
      jsonSkipValue (jsonMinifyRawValue (some p)) = some [] ∧
      (∀ x, Denotes jsonMaxNesting (jsonMinifyRawValue (some p)) x ↔ x = v) ∧
      jsonMinifyRawValue (some (jsonMinifyRawValue (some p))) = jsonMinifyRawValue (some p) := by
  obtain ⟨w, hraw⟩ : ∃ w, jsonRawValue p = some (w, q) := by
    rw [jsonRawValue, jsonSkipValue_skipSpace, h]
    exact ⟨_, rfl⟩
  have hval := (jsonRawValue_sound hraw).1
  obtain ⟨v, hv⟩ := hval.exists_denotes
  obtain ⟨w', hm, hv'⟩ := Denotes.keeps w v hv
  have hmin : jsonMinifyRawValue (some p) = w' := by
    rw [jsonMinifyRawValue, Option.getD_some, hraw]
    exact hm.eq
  have hone : ∀ {u}, Denotes jsonMaxNesting u v → ∀ x, Denotes jsonMaxNesting u x ↔ x = v := fun hu x =>
    ⟨fun hx => hx.unique hu, fun hx => hx ▸ hu⟩
  have hread : jsonSkipValue w' = some [] := by
    have := Val.read (r := []) Space.nil hv'.val (fun _ hc => by cases hc)
    rwa [List.append_nil] at this
  rw [hmin]
  refine ⟨w, v, hraw, hone hv, hread, hone hv', ?_⟩
  rw [hv'.val.minifyRawValue, ← hm.eq]
  exact jsonMinifyLoop_idem w false false fun _ => rfl

/-- The body of an accepted literal. -/
theorem strBody_of_jsonString {w r s : Bytes} (h : jsonString (ch '"' :: (w ++ ch '"' :: r)) = some (s, r)) :
    StrBody w := by
  obtain ⟨a, k, ha, hk, hp⟩ := jsonString_sound h
  have hskip := congrArg skipSpace hp
  rw [skipSpace_append ha, skipSpace_cons_of_not (by decide), skipSpace_cons_of_not (by decide)] at hskip
  rwa [List.append_cancel_right (List.cons.inj hskip).2]

/-- Values keep their meaning through the scanners: a value is minified to one with the same tree, an escaped
text is read back, and a literal in UTF-8 is read as its characters. -/
theorem json_values_preserved :
    (∀ p q, jsonSkipValue p = some q →
      ∃ w v, jsonRawValue p = some (w, q) ∧ (∀ x, Denotes jsonMaxNesting w x ↔ x = v) ∧
        jsonSkipValue (jsonMinifyRawValue (some p)) = some [] ∧
        (∀ x, Denotes jsonMaxNesting (jsonMinifyRawValue (some p)) x ↔ x = v) ∧
        jsonMinifyRawValue (some (jsonMinifyRawValue (some p))) = jsonMinifyRawValue (some p)) ∧
    (∀ s r, 0 ∉ s → jsonString (jsonEscape s ++ r) = some (s, r)) ∧
    ∀ w r s, 0 ∉ w → Whole w → jsonString (ch '"' :: (w ++ ch '"' :: r)) = some (s, r) →
      (∃ items, SpellsRow items w) ∧ ∀ items, SpellsRow items w → .unit 0 ∉ items →
        s = (decodeItems items).flatMap String.utf8EncodeChar := by
  refine ⟨fun p q => jsonMinifyRawValue_spec, fun s r => jsonString_jsonEscape, fun w r s h0 hw h => ⟨?_, ?_⟩⟩
  · exact (strBody_of_jsonString h).exists_row hw h0
  · intro items hitems hunit
    rw [jsonString_row hitems hunit r] at h
    exact (Prod.mk.inj (Option.some.inj h)).1.symm

end Ds4
