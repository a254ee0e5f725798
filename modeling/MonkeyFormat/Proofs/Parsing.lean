import MonkeyFormat.Grammar.Program
import MonkeyFormat.Proofs.Lexing

set_option autoImplicit false

/-! # Productions on given tokens

What a production makes of given tokens, when it is known which token comes behind them. Places do
not matter to the grammar of comment-free sources, so tokens are given without them, and trees are
compared without their spans. -/

namespace MonkeyFormat

/-! ## Trees without spans -/

mutual

/-- The node with all spans erased. -/
def Node.unspanned : Node → Node
  | ⟨kind, _, fields⟩ => ⟨kind, {}, fieldsUnspanned fields⟩

/-- The value with all spans erased. -/
def Value.unspanned : Value → Value
  | .node n => .node n.unspanned
  | .list vs => .list (itemsUnspanned vs)
  | .dict es => .dict (fieldsUnspanned es)
  | v => v

/-- The values of a list with all spans erased. -/
def itemsUnspanned : List Value → List Value
  | [] => []
  | v :: vs => v.unspanned :: itemsUnspanned vs

/-- Named values with all spans erased. -/
def fieldsUnspanned : List (String × Value) → List (String × Value)
  | [] => []
  | (k, v) :: fs => (k, v.unspanned) :: fieldsUnspanned fs

end

/-- A node that covers nothing, as trees are compared. -/
def Node.bare (kind : String) (fields : Fields) : Node := ⟨kind, {}, fields⟩

namespace Parse

/-! ## Taking tokens -/

/-- On the tokens `gs`, behind which comes one that `next` holds of, the production goes on like
one of those that `k` holds of, which has what is behind `gs` to come. -/
def Leads {β : Type} (m : Parse β) (gs : List Glyph) (next : Glyph → Prop) (k : Parse β → Prop) :
    Prop :=
  ∀ (p : Parser) (g : Glyph) (us : List Glyph), p.rest.map Token.glyph = gs ++ g :: us → next g →
    ∃ m' q, k m' ∧ q.rest.map Token.glyph = g :: us ∧ m.run.run p = m'.run.run q

/-- On the tokens `gs`, behind which comes one that `next` holds of, the production consumes them
and gives a result that `post` holds of. -/
def Takes {α : Type} (m : Parse α) (gs : List Glyph) (next : Glyph → Prop) (post : α → Prop) :
    Prop :=
  Leads m gs next fun m' => ∃ a, post a ∧ m' = pure a

/-- The production takes the tokens for a tree, spans aside. -/
abbrev Reads (m : Parse Node) (gs : List Glyph) (next : Glyph → Prop) (target : Node) : Prop :=
  Takes m gs next fun n => n.unspanned = target

variable {α β : Type} {m : Parse α} {f : α → Parse β} {gs hs : List Glyph}
  {next follow : Glyph → Prop} {post : α → Prop} {goal : β → Prop}

theorem Leads.trans {m : Parse β} {k l : Parse β → Prop} (hm : Leads m gs follow k)
    (hk : ∀ m', k m' → Leads m' hs next l) (hnext : ∀ g, next g → follow (hs.headD g)) :
    Leads m (gs ++ hs) next l := by
  intro p g us hp hg
  rw [List.append_assoc] at hp
  cases hs with
  | nil =>
    obtain ⟨m', q, hm', hq, hrun⟩ := hm p g us hp (hnext g hg)
    obtain ⟨m'', r, hm'', hr, hrun'⟩ := hk m' hm' q g us hq hg
    exact ⟨m'', r, hm'', hr, hrun.trans hrun'⟩
  | cons h hs =>
    obtain ⟨m', q, hm', hq, hrun⟩ := hm p h (hs ++ g :: us) hp (hnext g hg)
    obtain ⟨m'', r, hm'', hr, hrun'⟩ := hk m' hm' q g us hq hg
    exact ⟨m'', r, hm'', hr, hrun.trans hrun'⟩

theorem takes_iff : Takes m gs next post ↔ ∀ (p : Parser) (g : Glyph) (us : List Glyph),
    p.rest.map Token.glyph = gs ++ g :: us → next g →
      ∃ a q, post a ∧ q.rest.map Token.glyph = g :: us ∧ m.run.run p = (.ok a, q) := by
  constructor
  · intro h p g us hp hg
    obtain ⟨_, q, ⟨a, ha, rfl⟩, hq, hrun⟩ := h p g us hp hg
    exact ⟨a, q, ha, hq, hrun⟩
  · intro h p g us hp hg
    obtain ⟨a, q, ha, hq, hrun⟩ := h p g us hp hg
    exact ⟨pure a, q, ⟨a, ha, rfl⟩, hq, hrun⟩

theorem Takes.lead (hm : Takes m gs next post) (f : α → Parse β) :
    Leads (m >>= f) gs next fun m' => ∃ a, post a ∧ m' = f a := by
  intro p g us hp hg
  obtain ⟨a, q, ha, hq, hrun⟩ := takes_iff.1 hm p g us hp hg
  exact ⟨f a, q, ⟨a, ha, rfl⟩, hq, run_bind_ok f hrun⟩

/-- One production behind the other. -/
theorem Takes.bind (hm : Takes m gs follow post) (hf : ∀ a, post a → Takes (f a) hs next goal)
    (hnext : ∀ g, next g → follow (hs.headD g)) : Takes (m >>= f) (gs ++ hs) next goal := by
  refine (hm.lead f).trans ?_ hnext
  rintro _ ⟨a, ha, rfl⟩
  exact hf a ha

/-- One production behind another that consumes no token. -/
theorem Takes.look (hm : Takes m [] follow post) (hf : ∀ a, post a → Takes (f a) hs next goal)
    (hnext : ∀ g, next g → follow (hs.headD g)) : Takes (m >>= f) hs next goal := hm.bind hf hnext

/-- One production behind the other, of which the second consumes no token. -/
theorem Takes.last (hm : Takes m gs follow post) (hf : ∀ a, post a → Takes (f a) [] next goal)
    (hnext : ∀ g, next g → follow g) : Takes (m >>= f) gs next goal := by
  rw [← List.append_nil gs]
  exact hm.bind hf hnext

/-- One production behind the other, neither of which consumes a token. -/
theorem Takes.ahead (hm : Takes m [] next post) (hf : ∀ a, post a → Takes (f a) [] next goal) :
    Takes (m >>= f) [] next goal := hm.look hf fun _ hg => hg

theorem Takes.pure {a : α} (ha : post a) : Takes (Pure.pure a) [] next post :=
  fun p _ _ hp _ => ⟨_, p, ⟨a, ha, rfl⟩, hp, rfl⟩

theorem Takes.weaken {post' : α → Prop} {next' : Glyph → Prop} (hm : Takes m gs next post)
    (hnext : ∀ g, next' g → next g) (hpost : ∀ a, post a → post' a) : Takes m gs next' post' := by
  intro p g us hp hg
  obtain ⟨_, q, ⟨a, ha, rfl⟩, hq, hrun⟩ := hm p g us hp (hnext g hg)
  exact ⟨_, q, ⟨a, hpost a ha, rfl⟩, hq, hrun⟩

theorem Takes.map {f : α → β} (hm : Takes m gs next post) (hf : ∀ a, post a → goal (f a)) :
    Takes (f <$> m) gs next goal := by
  rw [takes_iff] at hm ⊢
  intro p g us hp hg
  obtain ⟨a, q, ha, hq, hrun⟩ := hm p g us hp hg
  exact ⟨f a, q, hf a ha, hq, run_map_ok f hrun⟩

/-! ## The next token -/

theorem run_current (p : Parser) : current.run.run p = (.ok p.head, p) := rfl

theorem head_glyph {p : Parser} {g : Glyph} {us : List Glyph}
    (h : p.rest.map Token.glyph = g :: us) : p.head.glyph = g := by
  cases hp : p.rest with
  | nil =>
    rw [hp] at h
    cases h
  | cons t ts =>
    rw [hp] at h
    rw [Parser.head, hp]
    exact (List.cons.inj h).1

/-- The next token is looked at and stays. -/
theorem takes_current (next : Glyph → Prop) : Takes current [] next fun t => next t.glyph := by
  rw [takes_iff]
  intro p g us hp hg
  refine ⟨p.head, p, ?_, hp, run_current p⟩
  rwa [head_glyph hp]

theorem takes_nextIs (kind : TokenKind) (b : Bool) :
    Takes (nextIs kind) [] (fun g => decide (g.kind = kind) = b) (· = b) :=
  (takes_current _).ahead fun _ ht => Takes.pure ht

theorem takes_atAny (kinds : List TokenKind) (b : Bool) :
    Takes (atAny kinds) [] (fun g => kinds.contains g.kind = b) (· = b) :=
  (takes_current _).ahead fun _ ht => Takes.pure ht

theorem takes_atText (kind : TokenKind) (text : String) (b : Bool) :
    Takes (atText kind text) [] (fun g => (decide (g.kind = kind) && decide (g.text = text)) = b)
      (· = b) :=
  (takes_current _).ahead fun _ ht => Takes.pure ht

/-- Consuming a token that is not the end. -/
theorem takes_advance {g : Glyph} (hg : g.kind ≠ .endOfInput) :
    Takes advance [g] next fun t => t.glyph = g := by
  rw [takes_iff]
  intro p h us hp _
  cases hrest : p.rest with
  | nil =>
    rw [hrest] at hp
    cases hp
  | cons t ts =>
    rw [hrest] at hp
    obtain ⟨ht, hts⟩ := List.cons.inj hp
    have hkind : t.kind ≠ .endOfInput := by
      rw [← ht] at hg
      exact hg
    refine ⟨t, { p with seen := t :: p.seen, rest := ts, last := some t }, ht, hts, ?_⟩
    unfold advance
    rw [run_bind_ok _ (show (get : Parse Parser).run.run p = (.ok p, p) from rfl), hrest]
    simp only [if_neg hkind]
    rfl

/-- A token that comes next is looked at, and then consumed with what follows it. -/
theorem Takes.peek {f : Token → Parse β} {g : Glyph}
    (hf : ∀ t : Token, t.glyph = g → Takes (f t) (g :: hs) next goal) :
    Takes (current >>= f) (g :: hs) next goal :=
  (takes_current (· = g)).bind hf fun _ _ => rfl

theorem takes_expect {g : Glyph} {kind : TokenKind} (what : String) (hkind : g.kind = kind)
    (hend : kind ≠ .endOfInput) : Takes (expect kind what) [g] next fun t => t.glyph = g := by
  refine Takes.peek fun t ht => ?_
  rw [if_pos (by rw [← hkind, ← ht]; rfl)]
  exact takes_advance (by rwa [hkind])

theorem takes_accept {g : Glyph} {kind : TokenKind} (hkind : g.kind = kind)
    (hend : kind ≠ .endOfInput) :
    Takes (accept kind) [g] next fun t => ∃ u : Token, t = some u ∧ u.glyph = g := by
  refine (takes_nextIs kind true).bind ?_ fun _ _ => by simpa using hkind
  rintro _ rfl
  exact (takes_advance (by rwa [hkind])).map fun t ht => ⟨t, rfl, ht⟩

theorem takes_accept_none (kind : TokenKind) :
    Takes (accept kind) [] (fun g => g.kind ≠ kind) (· = none) := by
  refine (takes_nextIs kind false).bind ?_ fun _ hg => by simpa using hg
  rintro _ rfl
  exact Takes.pure rfl

theorem takes_skip {g : Glyph} {kind : TokenKind} (hkind : g.kind = kind)
    (hend : kind ≠ .endOfInput) : Takes (skip kind) [g] next (· = true) := by
  have haccept : Takes (accept kind) [g] next _ := takes_accept hkind hend
  refine haccept.bind ?_ fun _ hg => hg
  rintro _ ⟨t, rfl, _⟩
  exact Takes.pure rfl

theorem takes_skip_none (kind : TokenKind) :
    Takes (skip kind) [] (fun g => g.kind ≠ kind) (· = false) := by
  refine (takes_accept_none kind).ahead ?_
  rintro _ rfl
  exact Takes.pure rfl

/-! ## Tokens before something else -/

section Before

variable {f : Token → Parse β} {b : Bool → Parse β} {g : Glyph} {kind : TokenKind}

theorem Takes.advance (hg : g.kind ≠ .endOfInput)
    (hf : ∀ t : Token, t.glyph = g → Takes (f t) hs next goal) :
    Takes (advance >>= f) (g :: hs) next goal := by
  have htake : Takes Parse.advance [g] (fun _ => True) _ := takes_advance hg
  exact htake.bind hf fun _ _ => trivial

theorem Takes.expect {what : String} (hkind : g.kind = kind) (hend : kind ≠ .endOfInput)
    (hf : ∀ t : Token, t.glyph = g → Takes (f t) hs next goal) :
    Takes (expect kind what >>= f) (g :: hs) next goal := by
  have htake : Takes (Parse.expect kind what) [g] (fun _ => True) _ := takes_expect what hkind hend
  exact htake.bind hf fun _ _ => trivial

theorem Takes.skip (hkind : g.kind = kind) (hend : kind ≠ .endOfInput)
    (hb : Takes (b true) hs next goal) : Takes (skip kind >>= b) (g :: hs) next goal := by
  have htake : Takes (Parse.skip kind) [g] (fun _ => True) _ := takes_skip hkind hend
  refine htake.bind ?_ fun _ _ => trivial
  rintro _ rfl
  exact hb

theorem Takes.skip_none (hnext : ∀ h, next h → (gs.headD h).kind ≠ kind)
    (hb : Takes (b false) gs next goal) : Takes (Parse.skip kind >>= b) gs next goal := by
  refine (takes_skip_none kind).look ?_ hnext
  rintro _ rfl
  exact hb

theorem Takes.nextIs (hkind : g.kind = kind) (hb : Takes (b true) (g :: hs) next goal) :
    Takes (nextIs kind >>= b) (g :: hs) next goal := by
  refine (takes_nextIs kind true).look ?_ fun _ _ => decide_eq_true hkind
  rintro _ rfl
  exact hb

theorem Takes.nextIs_not (hnext : ∀ h, next h → (gs.headD h).kind ≠ kind)
    (hb : Takes (b false) gs next goal) : Takes (Parse.nextIs kind >>= b) gs next goal := by
  refine (takes_nextIs kind false).look ?_ fun h hh => decide_eq_false (hnext h hh)
  rintro _ rfl
  exact hb

end Before

/-- The token behind the next one is looked at, whatever it is. -/
theorem Takes.second {f : Token → Parse β} (hf : ∀ t, Takes (f t) gs next goal) :
    Takes (second >>= f) gs next goal := by
  have hrun (p : Parser) : ∃ t, Parse.second.run.run p = (.ok t, p) := by
    unfold Parse.second
    rw [run_bind_ok _ (show (get : Parse Parser).run.run p = (.ok p, p) from rfl)]
    split <;> exact ⟨_, rfl⟩
  intro p g us hp hg
  obtain ⟨t, ht⟩ := hrun p
  rw [run_bind_ok f ht]
  exact hf t p g us hp hg

theorem takes_finish (kind : String) (first : Span) (fields : Fields) :
    Reads (finish kind first fields) [] next (.bare kind (fieldsUnspanned fields)) := by
  refine takes_iff.2 ?_
  intro p g us hp _
  exact ⟨_, p, rfl, hp, rfl⟩

theorem reads_finish {kind : String} {first : Span} {fields : Fields} {target : Node}
    (h : .bare kind (fieldsUnspanned fields) = target) :
    Reads (finish kind first fields) [] next target := by
  rw [← h]
  exact takes_finish kind first fields

/-! ## Repetition -/

/-- The production takes the tokens into a loop that has at least `rounds` rounds left, with a state
that `inv` holds of. -/
def Loops {σ : Type} (m : Parse σ) (gs : List Glyph) (next : Glyph → Prop)
    (step : σ → Parse (σ × Bool)) (rounds : Nat) (inv : σ → Prop) : Prop :=
  Leads m gs next fun m' => ∃ s fuel, inv s ∧ rounds ≤ fuel ∧ m' = loop step fuel s

section Loops

variable {σ : Type} {m : Parse σ} {step : σ → Parse (σ × Bool)} {rounds fuel : Nat}
  {inv inv' : σ → Prop}

theorem Takes.loops (hm : Takes m gs next inv) (hfuel : rounds ≤ fuel) :
    Loops (m >>= loop step fuel) gs next step rounds inv := by
  intro p g us hp hg
  obtain ⟨_, q, ⟨s, hs, rfl⟩, hq, hrun⟩ := hm.lead (loop step fuel) p g us hp hg
  exact ⟨_, q, ⟨s, fuel, hs, hfuel, rfl⟩, hq, hrun⟩

theorem Loops.round (hm : Loops m gs follow step (rounds + 1) inv)
    (hstep : ∀ s, inv s → Takes (step s) hs next fun r => r.2 = true ∧ inv' r.1)
    (hnext : ∀ g, next g → follow (hs.headD g)) :
    Loops m (gs ++ hs) next step rounds inv' := by
  refine Leads.trans hm ?_ hnext
  rintro _ ⟨s, fuel, hs, hfuel, rfl⟩
  cases fuel with
  | zero => omega
  | succ fuel =>
    intro p g us hp hg
    obtain ⟨_, q, ⟨⟨s', more⟩, ⟨rfl, hs'⟩, rfl⟩, hq, hrun⟩ := (hstep s hs).lead _ p g us hp hg
    exact ⟨_, q, ⟨s', fuel, hs', by omega, rfl⟩, hq, hrun⟩

theorem Loops.done (hm : Loops m gs follow step (rounds + 1) inv)
    (hstep : ∀ s, inv s → Takes (step s) [] next fun r => r.2 = false ∧ inv' r.1)
    (hnext : ∀ g, next g → follow g) : Takes m gs next inv' := by
  rw [← List.append_nil gs]
  refine Leads.trans hm ?_ hnext
  rintro _ ⟨s, fuel, hs, hfuel, rfl⟩
  cases fuel with
  | zero => omega
  | succ fuel =>
    refine (hstep s hs).ahead ?_
    rintro ⟨s', more⟩ ⟨rfl, hs'⟩
    exact Takes.pure hs'

end Loops

/-! ## Lists of nodes -/

section Lists

variable {ι : Type} {glyphs : ι → List Glyph} {target : ι → Node} {item : Parse Node}
  {starts ends : Glyph → Prop} {xs : List ι} {fuel : Nat}

theorem headD_append (gs hs : List Glyph) (g : Glyph) :
    (gs ++ hs).headD g = gs.headD (hs.headD g) := by
  cases gs <;> rfl

/-- The nodes collected so far, last one first, are those of some things. -/
def Collected (target : ι → Node) (xs : List ι) (acc ns : List Node) : Prop :=
  ns.map Node.unspanned = (xs.map target).reverse ++ acc.map Node.unspanned

theorem Collected.cons {x : ι} {acc ns : List Node} {n : Node} (hn : n.unspanned = target x)
    (h : Collected target xs (n :: acc) ns) : Collected target (x :: xs) acc ns := by
  rw [Collected] at h ⊢
  rw [h, List.map_cons, List.map_cons, List.reverse_cons, List.append_assoc, hn]
  rfl

theorem Collected.reverse {ns : List Node} (h : Collected target xs [] ns) :
    ns.reverse.map Node.unspanned = xs.map target := by
  rw [List.map_reverse, h, List.map_nil, List.append_nil, List.reverse_reverse]

/-- A round of a loop that collects nodes adds the node of a thing. -/
def Adds (target : ι → Node) (x : ι) (acc : List Node) (more : Bool) (r : List Node × Bool) :
    Prop :=
  ∃ n : Node, n.unspanned = target x ∧ r = (n :: acc, more)

section Rounds

variable {step : List Node → Parse (List Node × Bool)}

theorem takes_loop_done (hdone : ∀ acc, Takes (step acc) [] ends (· = (acc, false)))
    (hfuel : 0 < fuel) (acc : List Node) : Takes (loop step fuel acc) [] ends (· = acc) := by
  obtain ⟨fuel, rfl⟩ : ∃ m, fuel = m + 1 := ⟨fuel - 1, by omega⟩
  refine (hdone acc).ahead ?_
  rintro _ rfl
  exact Takes.pure rfl

/-- One more round. -/
theorem takes_loop_round {x : ι} {acc : List Node}
    (hround : Takes (step acc) gs follow (Adds target x acc true))
    (hrest : ∀ n : Node, Takes (loop step fuel (n :: acc)) hs next (Collected target xs (n :: acc)))
    (hnext : ∀ g, next g → follow (hs.headD g)) :
    Takes (loop step (fuel + 1) acc) (gs ++ hs) next (Collected target (x :: xs) acc) := by
  refine hround.bind ?_ hnext
  rintro _ ⟨n, hn, rfl⟩
  exact (hrest n).weaken (fun _ hg => hg) fun ns hns => hns.cons hn

theorem takes_loop_last {x : ι} {acc : List Node}
    (hround : Takes (step acc) gs next (Adds target x acc false)) :
    Takes (loop step (fuel + 1) acc) gs next (Collected target [x] acc) := by
  refine hround.last ?_ fun _ hg => hg
  rintro _ ⟨n, hn, rfl⟩
  refine Takes.pure ?_
  rw [Collected, List.map_cons, hn]
  rfl

/-- Things of which each takes a round, until there are no more. -/
theorem takes_rounds (hdone : ∀ acc, Takes (step acc) [] ends (· = (acc, false)))
    (hround : ∀ x ∈ xs, ∀ acc, Takes (step acc) (glyphs x) next (Adds target x acc true))
    (hstart : ∀ x ∈ xs, ∀ g, starts ((glyphs x).headD g))
    (hnext : ∀ g, starts g ∨ ends g → next g) (hfuel : xs.length < fuel) (acc : List Node) :
    Takes (loop step fuel acc) (xs.flatMap glyphs) ends (Collected target xs acc) := by
  induction xs generalizing acc fuel with
  | nil =>
    refine (takes_loop_done hdone hfuel acc).weaken (fun _ hg => hg) ?_
    rintro _ rfl
    rfl
  | cons x xs ih =>
    rw [List.length_cons] at hfuel
    obtain ⟨fuel, rfl⟩ : ∃ m, fuel = m + 1 := ⟨fuel - 1, by omega⟩
    rw [List.forall_mem_cons] at hround hstart
    rw [List.flatMap_cons]
    refine takes_loop_round (hround.1 acc) (fun n => ih hround.2 hstart.2 (by omega) _) ?_
    intro g hg
    cases xs with
    | nil => exact hnext g (.inr hg)
    | cons y ys =>
      rw [List.flatMap_cons, headD_append]
      exact hnext _ (.inl (hstart.2 y List.mem_cons_self _))

/-- Things of which each takes a round, with a comma behind all but the last. -/
theorem takes_separated {x : ι}
    (hlast : ∀ y ∈ x :: xs, ∀ acc, Takes (step acc) (glyphs y) ends (Adds target y acc false))
    (hround : ∀ y ∈ x :: xs, ∀ acc,
      Takes (step acc) (glyphs y ++ [Glyph.of ","]) (fun _ => True) (Adds target y acc true))
    (hfuel : xs.length < fuel) (acc : List Node) :
    Takes (loop step fuel acc) ([Glyph.of ","].intercalate ((x :: xs).map glyphs)) ends
      (Collected target (x :: xs) acc) := by
  induction xs generalizing acc fuel x with
  | nil =>
    obtain ⟨fuel, rfl⟩ : ∃ m, fuel = m + 1 := ⟨fuel - 1, by omega⟩
    rw [List.map_singleton, List.intercalate_singleton]
    exact takes_loop_last (hlast x List.mem_cons_self acc)
  | cons y ys ih =>
    rw [List.length_cons] at hfuel
    obtain ⟨fuel, rfl⟩ : ∃ m, fuel = m + 1 := ⟨fuel - 1, by omega⟩
    rw [List.forall_mem_cons] at hlast hround
    rw [List.map_cons, List.map_cons, List.intercalate_cons_cons, ← List.map_cons]
    exact takes_loop_round (hround.1 acc) (fun n => ih hlast.2 hround.2 (by omega) _)
      fun _ _ => trivial

end Rounds

/-- Things that are read one after the other, until a test holds. -/
theorem takes_many {stop : Parse Bool} (hgo : Takes stop [] starts (· = false))
    (hend : Takes stop [] ends (· = true))
    (hitem : ∀ x ∈ xs, Reads item (glyphs x) next (target x))
    (hstart : ∀ x ∈ xs, ∀ g, starts ((glyphs x).headD g))
    (hnext : ∀ g, starts g ∨ ends g → next g) (hfuel : xs.length < fuel) :
    Takes (many fuel stop item) (xs.flatMap glyphs) ends
      fun ns => ns.map Node.unspanned = xs.map target := by
  refine (takes_rounds (fun acc => ?_) (fun x hx acc => ?_) hstart hnext hfuel []).last
    (fun ns hns => Takes.pure hns.reverse) fun _ hg => hg
  · refine hend.ahead ?_
    rintro _ rfl
    exact Takes.pure rfl
  · refine hgo.look ?_ fun g _ => hstart x hx g
    rintro _ rfl
    exact (hitem x hx).last (fun n hn => Takes.pure ⟨n, hn, rfl⟩) fun _ hg => hg

/-- The step of a list with commas, behind the test for its end. -/
theorem takes_item_last {x : ι} (hitem : Reads item (glyphs x) next (target x))
    (hends : ∀ g, ends g → next g ∧ g.kind ≠ .comma) (acc : List Node) :
    Takes (do
      let n ← item
      pure (n :: acc, ← skip .comma)) (glyphs x) ends (Adds target x acc false) := by
  refine hitem.last (fun n hn => ?_) fun g hg => (hends g hg).1
  refine (takes_skip_none .comma).look ?_ fun g hg => (hends g hg).2
  rintro _ rfl
  exact Takes.pure ⟨n, hn, rfl⟩

theorem takes_item_comma {x : ι} (hitem : Reads item (glyphs x) next (target x))
    (hcomma : next (Glyph.of ",")) (acc : List Node) :
    Takes (do
      let n ← item
      pure (n :: acc, ← skip .comma)) (glyphs x ++ [Glyph.of ","]) starts
        (Adds target x acc true) := by
  refine hitem.bind (fun n hn => ?_) fun _ _ => hcomma
  have hskip : Takes (skip .comma) [Glyph.of ","] starts _ := takes_skip rfl (by decide)
  refine hskip.last ?_ fun _ hg => hg
  rintro _ rfl
  exact Takes.pure ⟨n, hn, rfl⟩

/-- One or more things with commas between them. -/
theorem takes_commas {x : ι} (hitem : ∀ y ∈ x :: xs, Reads item (glyphs y) next (target y))
    (hcomma : next (Glyph.of ",")) (hends : ∀ g, ends g → next g ∧ g.kind ≠ .comma)
    (hfuel : xs.length < fuel) :
    Takes (loop (fun acc => do
      let n ← item
      pure (n :: acc, ← skip .comma)) fuel []) ([Glyph.of ","].intercalate ((x :: xs).map glyphs))
      ends fun ns => ns.reverse.map Node.unspanned = (x :: xs).map target :=
  (takes_separated (fun y hy acc => takes_item_last (hitem y hy) hends acc)
    (fun y hy acc => takes_item_comma (hitem y hy) hcomma acc) hfuel []).weaken (fun _ hg => hg)
    fun _ hns => hns.reverse

/-- Things with commas between them, up to a closing token. -/
theorem takes_commaList {close : TokenKind} {last : Glyph} (hlast : last.kind = close)
    (hitem : ∀ x ∈ xs, Reads item (glyphs x) next (target x))
    (hstart : ∀ x ∈ xs, ∀ g, ((glyphs x).headD g).kind ≠ close)
    (hcomma : next (Glyph.of ",")) (hclose : next last) (hne : close ≠ .comma)
    (hfuel : xs.length < fuel) :
    Takes (commaList fuel close item) ([Glyph.of ","].intercalate (xs.map glyphs))
      (fun g => g = last) fun ns => ns.map Node.unspanned = xs.map target := by
  have hends : ∀ g, g = last → next g ∧ g.kind ≠ .comma := by
    rintro _ rfl
    exact ⟨hclose, by rwa [hlast]⟩
  cases xs with
  | nil =>
    refine (takes_loop_done (fun acc => ?_) hfuel []).last ?_ fun _ hg => hg
    · refine (takes_nextIs close true).look ?_ fun g hg => ?_
      · rintro _ rfl
        exact Takes.pure rfl
      · rw [List.headD_nil, hg]
        exact decide_eq_true hlast
    · rintro _ rfl
      exact Takes.pure rfl
  | cons x xs =>
    rw [List.length_cons] at hfuel
    have hopen (y : ι) (hy : y ∈ x :: xs) (g : Glyph) :
        decide (((glyphs y).headD g).kind = close) = false := decide_eq_false (hstart y hy g)
    refine (takes_separated (fun y hy acc => ?_) (fun y hy acc => ?_) (by omega) []).last
      (fun ns hns => Takes.pure hns.reverse) fun _ hg => hg
    · refine (takes_nextIs close false).look ?_ fun g _ => hopen y hy g
      rintro _ rfl
      exact takes_item_last (hitem y hy) hends acc
    · refine (takes_nextIs close false).look ?_ fun g _ => by
        rw [headD_append]
        exact hopen y hy _
      rintro _ rfl
      exact takes_item_comma (hitem y hy) hcomma acc

/-- The tokens of a list in parentheses. -/
def listed (gss : List (List Glyph)) : List Glyph :=
  Glyph.of "(" :: ([Glyph.of ","].intercalate gss ++ [Glyph.of ")"])

/-- Things with commas between them, in parentheses. -/
theorem takes_listed {what what' : String}
    (hitem : ∀ x ∈ xs, Reads item (glyphs x) next (target x))
    (hstart : ∀ x ∈ xs, ∀ g, ((glyphs x).headD g).kind ≠ .rightParen)
    (hcomma : next (Glyph.of ",")) (hclose : next (Glyph.of ")")) (hfuel : xs.length < fuel) :
    Takes (do
      let _ ← expect .leftParen what
      let ns ← commaList fuel .rightParen item
      let _ ← expect .rightParen what'
      pure ns) (listed (xs.map glyphs)) follow
      fun ns => ns.map Node.unspanned = xs.map target := by
  have hleft : Takes (expect .leftParen what) [Glyph.of "("] (fun _ => True) _ :=
    takes_expect what rfl (by decide)
  have hright : Takes (expect .rightParen what') [Glyph.of ")"] follow _ :=
    takes_expect what' rfl (by decide)
  have hlist : Takes (commaList fuel .rightParen item) _ (fun g => g = Glyph.of ")") _ :=
    takes_commaList rfl hitem hstart hcomma hclose (by decide) hfuel
  refine hleft.bind (fun _ _ => ?_) fun _ _ => trivial
  refine hlist.bind (fun ns hns => ?_) fun _ _ => rfl
  exact hright.last (fun _ _ => Takes.pure hns) fun _ hg => hg

/-- Declarations or statements up to the closing brace, which is consumed. -/
theorem takes_bodyUntilBrace (hitem : ∀ x ∈ xs, Reads item (glyphs x) next (target x))
    (hstart : ∀ x ∈ xs, ∀ g, (((glyphs x).headD g).kind ≠ .rightBrace ∧
      ((glyphs x).headD g).kind ≠ .endOfInput) ∧ next ((glyphs x).headD g))
    (hclose : next (Glyph.of "\x7d")) (hfuel : xs.length < fuel) :
    Takes (bodyUntilBrace fuel item) (xs.flatMap glyphs ++ [Glyph.of "\x7d"]) follow
      fun ns => ns.map Node.unspanned = xs.map target := by
  have hgo : Takes (nextIs .rightBrace) [] (fun g => (g.kind ≠ .rightBrace ∧
      g.kind ≠ .endOfInput) ∧ next g) (· = false) :=
    (takes_nextIs _ _).weaken (fun g hg => decide_eq_false hg.1.1) fun _ h => h
  have hend : Takes (nextIs .rightBrace) [] (fun g => g = Glyph.of "\x7d") (· = true) :=
    (takes_nextIs _ _).weaken (by rintro _ rfl; rfl) fun _ h => h
  have hguarded : ∀ x ∈ xs, Reads (do
      let t ← current
      if t.kind = .endOfInput then complain .unclosedBody t else item) (glyphs x) next
      (target x) := by
    intro x hx
    refine (takes_current fun g => g.kind ≠ .endOfInput).look (fun t ht => ?_)
      fun g _ => (hstart x hx g).1.2
    rw [if_neg (show t.kind ≠ .endOfInput from ht)]
    exact hitem x hx
  refine (takes_many hgo hend hguarded hstart ?_ hfuel).bind (fun ns hns => ?_) fun _ _ => rfl
  · rintro g (hg | rfl)
    · exact hg.2
    · exact hclose
  · have hbrace : Takes advance [Glyph.of "\x7d"] follow _ := takes_advance (by decide)
    exact hbrace.last (fun _ _ => Takes.pure hns) fun _ hg => hg

end Lists

/-! ## Whole sources -/

theorem length_le_weight (p : Parser) : p.rest.length ≤ p.weight := by
  unfold Parser.weight
  induction p.rest with
  | nil => exact Nat.le_refl _
  | cons t ts ih =>
    have hpos : 1 ≤ t.weight := by
      unfold Token.weight
      split <;> decide
    rw [List.foldr_cons, List.length_cons]
    omega

/-- A production gets more fuel than there are tokens. -/
theorem takes_fueled {production : Nat → Parse α}
    (h : ∀ fuel, gs.length + 2 ≤ fuel → Takes (production fuel) gs next post) :
    Takes (fueled production) gs next post := by
  intro p g us hp hg
  have hlength := congrArg List.length hp
  rw [List.length_map, List.length_append, List.length_cons] at hlength
  have hweight := length_le_weight p
  exact h (p.weight + 1) (by omega) p g us hp hg

/-- The end token is expected and stays. -/
theorem takes_expect_end (what : String) :
    Takes (expect .endOfInput what) [] (fun g => g.kind = .endOfInput) fun _ => True := by
  rw [takes_iff]
  intro p g us hp hg
  have hhead : p.head.kind = .endOfInput := by
    rw [← hg, ← head_glyph hp]
    rfl
  cases hrest : p.rest with
  | nil =>
    rw [hrest] at hp
    cases hp
  | cons t ts =>
    have ht : t.kind = .endOfInput := by
      rw [← hhead, Parser.head, hrest]
      rfl
    refine ⟨t, { p with last := some t }, trivial, hp, ?_⟩
    unfold expect
    rw [run_bind_ok _ (run_current p), if_pos hhead]
    unfold advance
    rw [run_bind_ok _ (show (get : Parse Parser).run.run p = (.ok p, p) from rfl), hrest]
    simp only [if_pos ht]
    rfl

end Parse

/-- A source whose tokens the start rule reads is parsed; its comments are those of the lexer. -/
theorem parse_of_tokens {o : Options} {source : String} {ts : List Token} {comments : List Comment}
    {gs : List Glyph} {target : Node} (htokens : tokenize source o.origin = .ok (ts, comments))
    (hts : ts.map Token.glyph = gs ++ [Lexer.endGlyph]) (hknown : ∀ g ∈ gs, g.kind ≠ .unknown)
    (hread : Parse.Reads (Parse.startRule o) gs (fun g => g = Lexer.endGlyph) target) :
    ∃ n, parse source o = .ok (n, comments) ∧ n.unspanned = target := by
  have hfind : ts.find? (fun t => t.kind = .unknown) = none := by
    rw [List.find?_eq_none]
    intro t ht
    have hglyph : t.glyph ∈ gs ++ [Lexer.endGlyph] := hts ▸ List.mem_map_of_mem ht
    rcases List.mem_append.1 hglyph with hmem | hmem
    · have hkind : t.kind ≠ .unknown := hknown _ hmem
      simp [hkind]
    · have hkind : t.kind = .endOfInput := congrArg Glyph.kind (List.mem_singleton.1 hmem)
      simp [hkind]
  obtain ⟨n, q, hn, _, hrun⟩ := Parse.takes_iff.1 hread (Parser.start ts source o.origin)
    Lexer.endGlyph [] hts rfl
  refine ⟨n, ?_, hn⟩
  unfold parse
  simp only [htokens, bind, Except.bind, hfind, hrun]
  rfl

/-- A text that lexes into tokens which the start rule reads is parsed without comments. -/
theorem parse_of_reads {o : Options} {text : String} {gs : List Glyph} {target : Node}
    (hscan : Lexeme.Scans text.toList gs)
    (hread : Parse.Reads (Parse.startRule o) gs (fun g => g = Lexer.endGlyph) target) :
    ∃ n, parse text o = .ok (n, []) ∧ n.unspanned = target := by
  obtain ⟨ts, htokens, hts⟩ := tokenize_of_scans hscan o.origin
  rw [String.ofList_toList] at htokens
  exact parse_of_tokens htokens hts hscan.known hread

end MonkeyFormat
