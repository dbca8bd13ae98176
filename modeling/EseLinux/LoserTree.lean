import Mathlib.Algebra.Group.Nat.Defs
import Mathlib.Logic.Equiv.Basic
import Mathlib.Data.Nat.Log
import Mathlib.Tactic.Set

/-!
Tournaments kept by their losers.  The leaves `n + i` for `i < n` and the matches `1 ≤ v < n` form
a binary tree in which `v / 2` is above `v`; a match keeps its loser, and place 0 keeps the
champion.  When the champion's leaf gets a new value, the matches above it are played again.

The tree starts with the least value everywhere.  Such an entry need not stand above its leaf, so
entries are compared by their values alone when these are least.
-/

namespace EseLinux.LoserTree

open Function Nat

structure Entry (β : Type*) where
  value : β
  src : Nat

variable {β : Type*}

def exchange (tree : Nat → Entry β) (v : Nat) : Nat → Entry β := fun j => tree (Equiv.swap 0 v j)

/-- The match at `v` against the entry on its way up. -/
def meet (less : β → β → Bool) (tree : Nat → Entry β) (v : Nat) : Nat → Entry β :=
  if less (tree v).value (tree 0).value then exchange tree v else tree

def climb (less : β → β → Bool) (tree : Nat → Entry β) (v : Nat) : Nat → Entry β :=
  if v / 2 = 0 then meet less tree v else climb less (meet less tree v) (v / 2)
termination_by v
decreasing_by omega

structure Orders (less : β → β → Bool) (bot : β) : Prop where
  trans : ∀ {x y z}, less y x = false → less z y = false → less z x = false
  asymm : ∀ {x y}, less x y = true → less y x = false
  least : ∀ x, less x bot = false
  sole : ∀ {x}, less bot x = false → x = bot

theorem Orders.irrefl {less : β → β → Bool} {bot : β} (ho : Orders less bot) (x : β) :
    less x x = false := by
  rcases hself : less x x with _ | _
  · rfl
  · exact hself.symm.trans (ho.asymm hself)

/-- The other place below the place above `c`. -/
def sibling (c : Nat) : Nat := if c % 2 = 0 then c + 1 else c - 1

theorem sibling_div (c : Nat) : sibling c / 2 = c / 2 := by
  unfold sibling
  split <;> omega

theorem sibling_ne (c : Nat) : sibling c ≠ c := by
  unfold sibling
  split <;> omega

theorem sibling_sibling (c : Nat) : sibling (sibling c) = c := by
  unfold sibling
  split <;> split <;> omega

variable {c : Nat}

theorem eq_sibling_of_div_eq {d : Nat} (h : c / 2 = d / 2) (hne : c ≠ d) : c = sibling d := by
  unfold sibling
  split <;> omega

theorem div_pow_succ (x k : Nat) : x / 2 ^ (k + 1) = x / 2 ^ k / 2 := by
  rw [Nat.div_div_eq_div_mul, Nat.pow_succ]

theorem div_two_div_pow (x k : Nat) : x / 2 / 2 ^ k = x / 2 ^ (k + 1) := by
  rw [Nat.div_div_eq_div_mul, Nat.pow_succ, Nat.mul_comm]

variable {k : Nat}

theorem div_pow_le_of_le (x : Nat) {j : Nat} (h : j ≤ k) : x / 2 ^ k ≤ x / 2 ^ j :=
  Nat.div_le_div_left (Nat.pow_le_pow_right Nat.two_pos h) (Nat.two_pow_pos j)

variable {x : Nat}

theorem div_pow_inj {j : Nat} (h : x / 2 ^ j = x / 2 ^ k) (hpos : 0 < x / 2 ^ j) : j = k := by
  have hlt {a b : Nat} (hab : a < b) (heq : x / 2 ^ a = x / 2 ^ b) : ¬ 0 < x / 2 ^ a := by
    have hle := div_pow_le_of_le x (succ_le_of_lt hab)
    rw [div_pow_succ, ← heq] at hle
    omega
  rcases lt_trichotomy j k with hjk | hjk | hjk
  · exact absurd hpos (hlt hjk h)
  · exact hjk
  · exact absurd (h ▸ hpos) (hlt hjk h.symm)

theorem div_pow_log (hx : 0 < x) : x / 2 ^ log 2 x = 1 := by
  apply Nat.div_eq_of_lt_le
  · rw [Nat.one_mul]
    exact pow_log_le_self 2 hx.ne'
  · have hlt := lt_pow_succ_log_self (b := 2) (by omega) x
    rw [pow_succ, mul_comm] at hlt
    exact hlt

variable {s : Nat}

theorem path_lt {n : Nat} (hs : s < n) (k : Nat) : (n + s) / 2 ^ (k + 1) < n := by
  have hle := div_le_self ((n + s) / 2) (2 ^ k)
  rw [div_two_div_pow] at hle
  omega

theorem le_log_of_div_pow_pos (h : 0 < x / 2 ^ k) : k ≤ log 2 x := by
  have hle : 2 ^ k ≤ x := (Nat.div_pos_iff.mp h).2
  exact le_log_of_pow_le (by omega) hle

def Same (bot : β) (e e' : Entry β) : Prop := e.value = e'.value ∧ (e.value ≠ bot → e.src = e'.src)

variable {bot : β} {e e' : Entry β}

theorem Same.refl (e : Entry β) : Same bot e e := ⟨rfl, fun _ => rfl⟩

theorem same_of_eq_bot (h : e.value = bot) (h' : e'.value = bot) : Same bot e e' :=
  ⟨h.trans h'.symm, fun hne => absurd h hne⟩

/-- The match at `v` was between the winners below it. -/
structure Settled (less : β → β → Bool) (bot : β) (tree win : Nat → Entry β) (v : Nat) : Prop where
  le : less (tree v).value (win v).value = false
  pair : ∃ c, c / 2 = v ∧ Same bot (win v) (win c) ∧ Same bot (tree v) (win (sibling c))

structure Settles (less : β → β → Bool) (bot : β) (n : Nat) (cur : Nat → β)
    (tree win : Nat → Entry β) : Prop where
  leaf : ∀ i < n, win (n + i) = ⟨cur i, i⟩
  settled : ∀ v, 0 < v → v < n → Settled less bot tree win v
  top : Same bot (tree 0) (win 1)

structure Carries (n : Nat) (cur : Nat → β) (tree : Nat → Entry β) : Prop where
  src_lt : ∀ j < n, (tree j).src < n
  value : ∀ j < n, (tree j).value = cur (tree j).src
  inj : ∀ j < n, ∀ k < n, (tree j).src = (tree k).src → j = k

structure Valid (less : β → β → Bool) (bot : β) (n : Nat) (cur : Nat → β) (tree : Nat → Entry β) :
    Prop where
  carries : Carries n cur tree
  settles : ∃ win, Settles less bot n cur tree win

theorem valid_init {less : β → β → Bool} (ho : Orders less bot) (n : Nat) :
    Valid less bot n (fun _ => bot) fun j => ⟨bot, j⟩ where
  carries := ⟨fun _ hj => hj, fun _ _ => rfl, fun _ _ _ _ h => h⟩
  settles := by
    refine ⟨fun v => ⟨bot, v - n⟩, ⟨?_, ?_, same_of_eq_bot rfl rfl⟩⟩
    · intro i _
      simp
    · intro v _ _
      exact ⟨ho.least bot, 2 * v, by omega, same_of_eq_bot rfl rfl, same_of_eq_bot rfl rfl⟩

section Invariant

variable {less : β → β → Bool} {n v : Nat} {cur : Nat → β} {tree win : Nat → Entry β}

theorem Settled.le_child (ho : Orders less bot) (h : Settled less bot tree win v)
    (hc : c / 2 = v) : less (win c).value (win v).value = false := by
  obtain ⟨d, hd, hwin, hlost⟩ := h.pair
  by_cases hcd : c = d
  · rw [hcd, ← hwin.1]
    exact ho.irrefl _
  · rw [eq_sibling_of_div_eq (hc.trans hd.symm) hcd, ← hlost.1]
    exact h.le

theorem Valid.champ_le (ho : Orders less bot) (h : Valid less bot n cur tree) {i : Nat}
    (hi : i < n) : less (cur i) (tree 0).value = false := by
  obtain ⟨win, hwin⟩ := h.settles
  have hle v : 0 < v → v < 2 * n → less (win v).value (win 1).value = false := by
    induction v using Nat.strongRecOn with
    | ind v ih =>
      intro hpos hlt
      by_cases hv : v = 1
      · rw [hv]
        exact ho.irrefl _
      · have hup := ih (v / 2) (by omega) (by omega) (by omega)
        exact ho.trans hup ((hwin.settled (v / 2) (by omega) (by omega)).le_child ho rfl)
  have hleaf := hle (n + i) (by omega) (by omega)
  rwa [hwin.leaf i hi, ← hwin.top.1] at hleaf

theorem Settles.origin (h : Settles less bot n cur tree win) (hpos : 0 < v)
    (hlt : v < 2 * n) (hne : (win v).value ≠ bot) : ∃ k, (n + (win v).src) / 2 ^ k = v := by
  induction hm : 2 * n - v using Nat.strongRecOn generalizing v with
  | ind m ih =>
    by_cases hv : v < n
    · obtain ⟨c, hc, hwin, -⟩ := (h.settled v hpos hv).pair
      obtain ⟨k, hk⟩ := ih (2 * n - c) (by omega) (v := c) (by omega) (by omega)
        (hwin.1 ▸ hne) rfl
      refine ⟨k + 1, ?_⟩
      rw [hwin.2 hne, div_pow_succ, hk, hc]
    · obtain ⟨i, rfl⟩ := Nat.exists_eq_add_of_le (Nat.le_of_not_lt hv)
      refine ⟨0, ?_⟩
      rw [h.leaf i (by omega), Nat.pow_zero, Nat.div_one]

theorem Settles.from_child (h : Settles less bot n cur tree win) (hs : s < n)
    (hpos : 0 < (n + s) / 2 ^ (k + 1)) (hwin : (win ((n + s) / 2 ^ (k + 1))).value ≠ bot)
    (hsrc : (win ((n + s) / 2 ^ (k + 1))).src = s) (hc : c / 2 = (n + s) / 2 ^ (k + 1))
    (hsame : Same bot (win ((n + s) / 2 ^ (k + 1))) (win c)) : c = (n + s) / 2 ^ k := by
  have hlt := path_lt hs k
  obtain ⟨j, hj⟩ := h.origin (v := c) (by omega) (by omega) (hsame.1 ▸ hwin)
  rw [← hsame.2 hwin, hsrc] at hj
  have heq : (n + s) / 2 ^ (j + 1) = (n + s) / 2 ^ (k + 1) := by
    rw [div_pow_succ, hj, hc]
  rw [← hj, succ.inj (div_pow_inj heq (heq ▸ hpos))]

theorem Settles.champ_path (h : Settles less bot n cur tree win) (hs : s < n)
    (hsrc : (tree 0).src = s) (hne : (tree 0).value ≠ bot) (hpos : 0 < (n + s) / 2 ^ k) :
    Same bot (tree 0) (win ((n + s) / 2 ^ k)) := by
  have hx : 0 < n + s := by omega
  refine decreasingInduction (n := log 2 (n + s))
    (motive := fun k _ => Same bot (tree 0) (win ((n + s) / 2 ^ k))) ?_ ?_
    (le_log_of_div_pow_pos hpos)
  · intro k hk ih
    have hup : 0 < (n + s) / 2 ^ (k + 1) := by
      have hle := div_pow_le_of_le (n + s) (succ_le_of_lt hk)
      rw [div_pow_log hx] at hle
      exact hle
    obtain ⟨c, hc, hwin, -⟩ := (h.settled _ hup (path_lt hs k)).pair
    have hat := h.from_child hs hup (ih.1 ▸ hne) ((ih.2 hne).symm.trans hsrc) hc hwin
    rw [← hat]
    exact ⟨ih.1.trans hwin.1, fun hne => (ih.2 hne).trans (hwin.2 (ih.1 ▸ hne))⟩
  · rw [div_pow_log hx]
    exact h.top

theorem Settles.bot_path (ho : Orders less bot) (h : Settles less bot n cur tree win)
    (hs : s < n) (hcur : cur s = bot) (hpos : 0 < (n + s) / 2 ^ k) :
    (win ((n + s) / 2 ^ k)).value = bot := by
  induction k with
  | zero =>
    rw [Nat.pow_zero, Nat.div_one, h.leaf s hs]
    exact hcur
  | succ k ih =>
    have hbelow := ih (hpos.trans_le (div_pow_le_of_le _ k.le_succ))
    have hle := (h.settled _ hpos (path_lt hs k)).le_child ho (div_pow_succ (n + s) k).symm
    rw [hbelow] at hle
    exact ho.sole hle

theorem Settles.lost_path (ho : Orders less bot) (h : Settles less bot n cur tree win)
    (hs : s < n) (hsrc : (tree 0).src = s) (hcur : (tree 0).value = cur s)
    (hpos : 0 < (n + s) / 2 ^ (k + 1)) :
    Same bot (tree ((n + s) / 2 ^ (k + 1))) (win (sibling ((n + s) / 2 ^ k))) := by
  obtain ⟨c, hc, hwin, hlost⟩ := (h.settled _ hpos (path_lt hs k)).pair
  by_cases hbot : (tree 0).value = bot
  · have hpath := fun k hpos => h.bot_path ho (k := k) hs (hcur.symm.trans hbot) hpos
    by_cases hat : c = (n + s) / 2 ^ k
    · rw [← hat]
      exact hlost
    · -- both sides have the least value, so the sides do not matter
      have hother := eq_sibling_of_div_eq (hc.trans (div_pow_succ _ _)) hat
      rw [hother, sibling_sibling] at hlost
      rw [hother] at hwin
      have hbelow := hpath k (hpos.trans_le (div_pow_le_of_le _ k.le_succ))
      exact same_of_eq_bot (hlost.1.trans hbelow) (hwin.1.symm.trans (hpath (k + 1) hpos))
  · have hpath := h.champ_path hs hsrc hbot hpos
    rw [← h.from_child hs hpos (hpath.1 ▸ hbot) ((hpath.2 hbot).symm.trans hsrc) hc hwin]
    exact hlost

theorem exchange_zero (tree : Nat → Entry β) (v : Nat) : exchange tree v 0 = tree v := by
  rw [exchange, Equiv.swap_apply_left]

theorem exchange_at (tree : Nat → Entry β) (v : Nat) : exchange tree v v = tree 0 := by
  rw [exchange, Equiv.swap_apply_right]

theorem meet_of_ne (tree : Nat → Entry β) {u : Nat} (hu : u ≠ 0) (huv : u ≠ v) :
    meet less tree v u = tree u := by
  unfold meet
  split
  · rw [exchange, Equiv.swap_apply_of_ne_of_ne hu huv]
  · rfl

theorem meet_cases (ho : Orders less bot) (tree : Nat → Entry β) (v : Nat) :
    less (meet less tree v v).value (meet less tree v 0).value = false ∧
      (meet less tree v 0 = tree 0 ∧ meet less tree v v = tree v ∨
        meet less tree v 0 = tree v ∧ meet less tree v v = tree 0) := by
  unfold meet
  split
  · rename_i hless
    rw [exchange_zero, exchange_at]
    exact ⟨ho.asymm hless, .inr ⟨rfl, rfl⟩⟩
  · rename_i hless
    exact ⟨eq_false_of_ne_true hless, .inl ⟨rfl, rfl⟩⟩

/-- An entry from below `c` is on its way to the match above, and those further up still hold the
winners of their other sides. -/
structure Climbing (less : β → β → Bool) (bot : β) (n : Nat) (cur : Nat → β)
    (tree win : Nat → Entry β) (v c : Nat) : Prop where
  child : c / 2 = v
  leaf : ∀ i < n, win (n + i) = ⟨cur i, i⟩
  settled : ∀ u, 0 < u → u < n → (∀ k, u ≠ v / 2 ^ k) → Settled less bot tree win u
  lost : ∀ k, 0 < v / 2 ^ k → Same bot (tree (v / 2 ^ k)) (win (sibling (c / 2 ^ k)))
  contender : Same bot (tree 0) (win c)

variable {v c : Nat}

theorem Climbing.settled_meet (ho : Orders less bot) (h : Climbing less bot n cur tree win v c)
    (hv : 0 < v) :
    Settled less bot (meet less tree v) (update win v (meet less tree v 0)) v := by
  have hc := h.child
  have hsib := sibling_div c
  have hlost := h.lost 0
  rw [Nat.pow_zero, Nat.div_one, Nat.div_one] at hlost
  obtain ⟨hle, hcases⟩ := meet_cases ho tree v
  refine ⟨by rw [update_self]; exact hle, ?_⟩
  rcases hcases with ⟨hzero, hat⟩ | ⟨hzero, hat⟩
  · refine ⟨c, hc, ?_, ?_⟩
    · rw [update_self, update_of_ne (by omega), hzero]
      exact h.contender
    · rw [update_of_ne (by omega), hat]
      exact hlost hv
  · refine ⟨sibling c, by omega, ?_, ?_⟩
    · rw [update_self, update_of_ne (by omega), hzero]
      exact hlost hv
    · rw [sibling_sibling, update_of_ne (by omega), hat]
      exact h.contender

theorem Climbing.step (ho : Orders less bot) (h : Climbing less bot n cur tree win v c)
    (hv : 0 < v) (hvn : v < n) :
    Climbing less bot n cur (meet less tree v) (update win v (meet less tree v 0))
      (v / 2) v where
  child := rfl
  leaf i hi := by
    rw [update_of_ne (by omega)]
    exact h.leaf i hi
  settled u hu hun hup := by
    by_cases huv : u = v
    · rw [huv]
      exact h.settled_meet ho hv
    · have hold : Settled less bot tree win u := by
        apply h.settled u hu hun
        rintro (_ | k)
        · rw [Nat.pow_zero, Nat.div_one]
          exact huv
        · rw [← div_two_div_pow]
          exact hup k
      have habove : u ≠ v / 2 := by simpa using hup 0
      obtain ⟨d, hd, hwin, hlost⟩ := hold.pair
      have hsib := sibling_div d
      refine ⟨?_, d, hd, ?_, ?_⟩
      · rw [meet_of_ne tree hu.ne' huv, update_of_ne huv]
        exact hold.le
      · rw [update_of_ne huv, update_of_ne (by omega)]
        exact hwin
      · rw [meet_of_ne tree hu.ne' huv, update_of_ne (by omega)]
        exact hlost
  lost k hk := by
    have hlost := h.lost (k + 1)
    rw [← div_two_div_pow, ← div_two_div_pow, h.child] at hlost
    have hle := div_le_self (v / 2) (2 ^ k)
    have hsib : sibling (v / 2 ^ k) ≠ v := by
      intro heq
      have hdiv := sibling_div (v / 2 ^ k)
      rw [heq, ← div_pow_succ, ← div_two_div_pow] at hdiv
      rcases k with _ | k
      · rw [Nat.pow_zero, Nat.div_one] at heq
        exact sibling_ne v heq
      · rw [Nat.pow_succ, Nat.mul_comm, ← Nat.div_div_eq_div_mul] at hdiv
        have hle' := div_le_self (v / 2 / 2) (2 ^ k)
        omega
    rw [meet_of_ne tree hk.ne' (by omega), update_of_ne hsib]
    exact hlost hk
  contender := by
    rw [update_self]
    exact Same.refl _

theorem Climbing.settles_climb (ho : Orders less bot) (h : Climbing less bot n cur tree win v c)
    (hv : 0 < v) (hvn : v < n) : ∃ win, Settles less bot n cur (climb less tree v) win := by
  induction v using Nat.strongRecOn generalizing tree win c with
  | ind v ih =>
    have hstep := h.step ho hv hvn
    rw [climb]
    split
    · rename_i htop
      obtain rfl : v = 1 := by omega
      refine ⟨_, hstep.leaf, ?_, hstep.contender⟩
      intro u hu hun
      apply hstep.settled u hu hun
      intro k
      rw [Nat.zero_div]
      exact hu.ne'
    · exact ih (v / 2) (by omega) hstep (by omega) (by omega)

theorem Carries.exchange (h : Carries n cur tree) (hvn : v < n) :
    Carries n cur (exchange tree v) := by
  have hswap j (hj : j < n) : Equiv.swap 0 v j < n := by
    rw [Equiv.swap_apply_def]
    split
    · exact hvn
    · split <;> omega
  refine ⟨fun j hj => h.src_lt _ (hswap j hj), fun j hj => h.value _ (hswap j hj), ?_⟩
  intro j hj k hk heq
  exact (Equiv.swap 0 v).injective (h.inj _ (hswap j hj) _ (hswap k hk) heq)

theorem Carries.meet (h : Carries n cur tree) (hvn : v < n) : Carries n cur (meet less tree v) := by
  unfold LoserTree.meet
  split
  · exact h.exchange hvn
  · exact h

theorem Carries.climb (h : Carries n cur tree) (hvn : v < n) :
    Carries n cur (climb less tree v) := by
  induction v using Nat.strongRecOn generalizing tree with
  | ind v ih =>
    rw [LoserTree.climb]
    split
    · exact h.meet hvn
    · exact ih (v / 2) (by omega) (h.meet hvn) (by omega)

def replace (less : β → β → Bool) (n : Nat) (tree : Nat → Entry β) (x : β) : Nat → Entry β :=
  climb less (update tree 0 ⟨x, (tree 0).src⟩) (((tree 0).src + n) / 2)

theorem Carries.update (h : Carries n cur tree) (hn : 0 < n) (x : β) :
    Carries n (update cur (tree 0).src x)
      (update tree 0 ⟨x, (tree 0).src⟩) := by
  have hsrc j : (Function.update tree 0 ⟨x, (tree 0).src⟩ j).src = (tree j).src := by
    by_cases hj : j = 0
    · rw [hj, update_self]
    · rw [update_of_ne hj]
  refine ⟨?_, ?_, ?_⟩
  · intro j hj
    rw [hsrc]
    exact h.src_lt j hj
  · intro j hj
    rw [hsrc]
    by_cases hzero : j = 0
    · rw [hzero, update_self, update_self]
    · have hne : (tree j).src ≠ (tree 0).src := fun heq => hzero (h.inj j hj 0 hn heq)
      rw [update_of_ne hzero, update_of_ne hne]
      exact h.value j hj
  · intro j hj k hk heq
    rw [hsrc, hsrc] at heq
    exact h.inj j hj k hk heq

theorem Valid.replace (ho : Orders less bot) (h : Valid less bot n cur tree) (hn : 1 < n) (x : β) :
    Valid less bot n (update cur (tree 0).src x) (replace less n tree x) := by
  obtain ⟨win, hwin⟩ := h.settles
  have hs := h.carries.src_lt 0 (by omega)
  have hlost := fun k => hwin.lost_path ho (k := k) hs rfl (h.carries.value 0 (by omega))
  set s := (tree 0).src with hsdef
  have hup : (s + n) / 2 = (n + s) / 2 := by rw [add_comm]
  refine ⟨(h.carries.update (by omega) x).climb (by omega), ?_⟩
  rw [LoserTree.replace, ← hsdef, hup]
  suffices hclimb : Climbing less bot n (update cur s x)
      (update tree 0 ⟨x, s⟩) (update win (n + s) ⟨x, s⟩) ((n + s) / 2)
      (n + s) from
    hclimb.settles_climb ho (by omega) (by omega)
  refine ⟨rfl, ?_, ?_, ?_, ?_⟩
  · intro i hi
    by_cases his : i = s
    · rw [his, update_self, update_self]
    · rw [update_of_ne (by omega), update_of_ne his]
      exact hwin.leaf i hi
  · intro u hu hun hoff
    have hold := hwin.settled u hu hun
    have habove : u ≠ (n + s) / 2 := by simpa using hoff 0
    obtain ⟨d, hd, hdwin, hdlost⟩ := hold.pair
    have hsib := sibling_div d
    refine ⟨?_, d, hd, ?_, ?_⟩
    · rw [update_of_ne hu.ne', update_of_ne (by omega)]
      exact hold.le
    · rw [update_of_ne (by omega), update_of_ne (by omega)]
      exact hdwin
    · rw [update_of_ne hu.ne', update_of_ne (by omega)]
      exact hdlost
  · intro k hk
    rw [div_two_div_pow] at hk ⊢
    have hsib : sibling ((n + s) / 2 ^ k) ≠ n + s := by
      intro heq
      have hdiv := sibling_div ((n + s) / 2 ^ k)
      rw [heq, ← div_pow_succ] at hdiv
      have hk0 := div_pow_inj (j := 1) (k := k + 1) (by rw [pow_one]; exact hdiv) (by omega)
      obtain rfl : k = 0 := by omega
      rw [Nat.pow_zero, Nat.div_one] at heq
      exact sibling_ne _ heq
    rw [update_of_ne hk.ne', update_of_ne hsib]
    exact hlost k hk
  · rw [update_self, update_self]
    exact Same.refl _

end Invariant

end EseLinux.LoserTree
