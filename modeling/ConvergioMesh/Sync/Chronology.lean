import ConvergioMesh.Sync.Timestamp

/-!
# Chronology of the texts

The text order of two timestamps is decided by the fields as written, else by the digits behind the
point, else by the zone. The order of the instants is decided by other things: the offsets first.
-/

namespace ConvergioMesh

open Library

/-! ### Fractions -/

theorem fractionValue_range (fraction : List (Fin 10)) :
    0 ≤ fractionValue fraction ∧ fractionValue fraction < 1 := by
  induction fraction with
  | nil => exact ⟨le_rfl, zero_lt_one⟩
  | cons d ds ih =>
    have digit : (d.val : Rat) ≤ 9 := by exact_mod_cast Nat.le_of_lt_succ d.isLt
    have positive : (0 : Rat) ≤ d.val := Nat.cast_nonneg _
    unfold fractionValue
    constructor <;> linarith

theorem fractionValue_append (p rest : List (Fin 10)) :
    fractionValue (p ++ rest) = fractionValue p + fractionValue rest / 10 ^ p.length := by
  induction p with
  | nil => simp [fractionValue]
  | cons d p ih =>
    rw [List.cons_append, fractionValue, fractionValue, ih, List.length_cons, pow_succ, ← div_div, ← add_div,
      add_assoc]

theorem fractionValue_eq_zero_iff {ds : List (Fin 10)} : fractionValue ds = 0 ↔ ∀ d ∈ ds, d = 0 := by
  induction ds with
  | nil => simp [fractionValue]
  | cons d ds ih =>
    have below := (fractionValue_range ds).1
    have positive : (0 : Rat) ≤ d.val := Nat.cast_nonneg _
    have zero : (d.val : Rat) = 0 ↔ d = 0 := by
      rw [Nat.cast_eq_zero]
      exact Fin.val_eq_zero_iff
    rw [List.forall_mem_cons, ← ih, ← zero, fractionValue]
    constructor
    · intro h
      constructor <;> linarith
    · rintro ⟨first, others⟩
      rw [first, others]
      simp

/-- The first digit that differs decides. -/
theorem fractionValue_lt_of_digit (p : List (Fin 10)) {d e : Fin 10} (smaller : d < e) (ds es : List (Fin 10)) :
    fractionValue (p ++ d :: ds) < fractionValue (p ++ e :: es) := by
  have room : (0 : Rat) < 10 ^ p.length := by positivity
  have below := fractionValue_range ds
  have above := fractionValue_range es
  have step : (d.val : Rat) + 1 ≤ e.val := by exact_mod_cast smaller
  rw [fractionValue_append, fractionValue_append, add_lt_add_iff_left, div_lt_div_iff_of_pos_right room]
  unfold fractionValue
  linarith

theorem fractionValue_le_append (p rest : List (Fin 10)) : fractionValue p ≤ fractionValue (p ++ rest) := by
  rw [fractionValue_append]
  have := div_nonneg (fractionValue_range rest).1 (pow_nonneg (by norm_num : (0 : Rat) ≤ 10) p.length)
  linarith

/-- Digits behind the others count unless they are all zero. -/
theorem fractionValue_lt_append_iff {p rest : List (Fin 10)} :
    fractionValue p < fractionValue (p ++ rest) ↔ ¬∀ d ∈ rest, d = 0 := by
  have room : (10 : Rat) ^ p.length ≠ 0 := by positivity
  rw [← fractionValue_eq_zero_iff, lt_iff_le_and_ne, and_iff_right (fractionValue_le_append p rest),
    fractionValue_append, ne_eq, left_eq_add, div_eq_zero_iff, or_iff_left room]

namespace Form

/-! ### Zones -/

/-- The place of the zone by its first character: none, `+`, `-`, `Z`, `z`. -/
def zoneRank : Form → Nat
  | .canonical => 0
  | .rfc3339 _ _ (.numeric true ..) => 1
  | .rfc3339 _ _ (.numeric false ..) => 2
  | .rfc3339 _ _ (.utc true) => 3
  | .rfc3339 _ _ (.utc false) => 4

/-- The zone is a letter. -/
abbrev Lettered (f : Form) : Prop := 3 ≤ f.zoneRank

/-- The first character of a zone. -/
def sign : Nat → Char
  | 1 => '+'
  | 2 => '-'
  | 3 => 'Z'
  | _ => 'z'

theorem sign_lt : ∀ n < 5, ∀ m < n, 0 < m → sign m < sign n := by decide

/-- The text of a numeric zone behind its sign. -/
def clockText (hours minutes : Nat) : List Char := numeral 2 hours ++ ':' :: numeral 2 minutes

/-- What a zone is by its rank: nothing, a sign and a number of minutes, or a letter. -/
inductive Shape (rank : Nat) (text : List Char) (offset : Int) : Prop where
  | none (zero : rank = 0) (empty : text = []) (utc : offset = 0)
  | numeric (hours minutes : Nat) (range : hours < 24 ∧ minutes < 60)
      (signed : text = sign rank :: clockText hours minutes)
      (shift : rank = 1 ∧ offset = 60 * hours + minutes ∨ rank = 2 ∧ offset = -(60 * hours + minutes))
  | letter (lettered : rank = 3 ∨ rank = 4) (single : text = [sign rank]) (utc : offset = 0)

theorem shape (f : Form) : Shape f.zoneRank f.zoneText f.offset := by
  match f with
  | .canonical => exact .none rfl rfl rfl
  | .rfc3339 _ _ (.utc true) => exact .letter (.inl rfl) rfl rfl
  | .rfc3339 _ _ (.utc false) => exact .letter (.inr rfl) rfl rfl
  | .rfc3339 _ _ (.numeric true hours minutes range) =>
    exact .numeric hours minutes range rfl (.inl ⟨rfl, one_mul _⟩)
  | .rfc3339 _ _ (.numeric false hours minutes range) =>
    exact .numeric hours minutes range rfl (.inr ⟨rfl, neg_one_mul _⟩)

theorem clockText_lt_iff {h m h' m' : Nat} (range : h < 24 ∧ m < 60) (range' : h' < 24 ∧ m' < 60) :
    clockText h m < clockText h' m' ↔ 60 * h + m < 60 * h' + m' := by
  have fits {h m : Nat} (range : h < 24 ∧ m < 60) : Fits [([], 2), ([':'], 2)] [h, m] := by
    refine .cons ?_ (.cons ?_ .nil) <;> dsimp only <;> omega
  have order := render_lt_iff (fits range) (fits range')
  simp only [render, List.nil_append, List.append_nil, List.singleton_append] at order
  unfold clockText
  rw [order, List.cons_lt_cons_iff, List.cons_lt_cons_iff]
  simp only [List.not_lt_nil, and_false, or_false]
  omega

/-- A first character of a zone, unless there is none. -/
theorem zoneText_eq (f : Form) :
    f.zoneRank = 0 ∧ f.zoneText = [] ∨
      0 < f.zoneRank ∧ f.zoneRank < 5 ∧ ∃ rest, f.zoneText = sign f.zoneRank :: rest := by
  cases f.shape with
  | none zero empty utc => exact .inl ⟨zero, empty⟩
  | numeric hours minutes range signed shift => exact .inr ⟨by omega, by omega, _, signed⟩
  | letter lettered single utc => exact .inr ⟨by omega, by omega, _, single⟩

theorem zoneText_lt_of_rank {f g : Form} (h : f.zoneRank < g.zoneRank) : f.zoneText < g.zoneText := by
  obtain ⟨_, rank, rest, text⟩ := g.zoneText_eq.resolve_left (by omega)
  rw [text]
  rcases f.zoneText_eq with ⟨_, empty⟩ | ⟨positive, _, rest', text'⟩
  · rw [empty]
    exact List.nil_lt_cons ..
  · rw [text', List.cons_lt_cons_iff]
    exact .inl (sign_lt _ rank _ h positive)

/-- Zones are ordered by their first characters, then by the minutes without the sign. -/
theorem zoneText_lt_iff (f g : Form) :
    f.zoneText < g.zoneText ↔
      f.zoneRank < g.zoneRank ∨ f.zoneRank = g.zoneRank ∧ f.offset.natAbs < g.offset.natAbs := by
  rcases lt_trichotomy f.zoneRank g.zoneRank with before | same | after
  · exact iff_of_true (zoneText_lt_of_rank before) (.inl before)
  · rw [same, or_iff_right (lt_irrefl _), and_iff_right rfl]
    cases f.shape with
    | none zero empty utc =>
      cases g.shape with
      | none zero' empty' utc' => simp [empty, empty', utc, utc']
      | numeric | letter => omega
    | numeric hours minutes range signed shift =>
      cases g.shape with
      | numeric hours' minutes' range' signed' shift' =>
        rw [signed, signed', same, List.cons_lt_cons_self, clockText_lt_iff range range']
        omega
      | none | letter => omega
    | letter lettered single utc =>
      cases g.shape with
      | letter lettered' single' utc' => simp [single, single', same, utc, utc']
      | none | numeric => omega
  · exact iff_of_false (zoneText_lt_of_rank after).not_gt (by omega)

/-- What the zones behind the same digits have to satisfy: of different first characters the first one is
written further east, and there are no two `+` with different minutes. -/
structure ZonesOrdered (f g : Form) : Prop where
  first : f.zoneRank < g.zoneRank → g.offset < f.offset
  last : g.zoneRank < f.zoneRank → f.offset ≤ g.offset
  plus : f.zoneRank = 1 → g.zoneRank = 1 → f.offset = g.offset

theorem zonesOrdered_iff {f g : Form} : (f.zoneText < g.zoneText ↔ g.offset < f.offset) ↔ ZonesOrdered f g := by
  rw [zoneText_lt_iff]
  constructor
  · intro ordered
    refine ⟨fun before => ordered.mp (.inl before), fun after => ?_, fun plus plus' => ?_⟩
    · rw [← not_lt, ← ordered]
      omega
    · cases f.shape <;> cases g.shape <;> omega
  · rintro ⟨first, last, plus⟩
    cases f.shape <;> cases g.shape <;> omega

theorem sign_below : ∀ n < 3, 0 < n → sign n ≤ '-' := by decide

theorem sign_above : ∀ n < 5, 3 ≤ n → 'Z' ≤ sign n := by decide

/-- A character between the signs and the letters comes before a letter and behind every other zone. -/
theorem zoneText_beside (f : Form) {c : Char} (above : '-' < c) (below : c < 'Z') (rest : List Char) :
    (f.zoneText < c :: rest ↔ ¬f.Lettered) ∧ (c :: rest < f.zoneText ↔ f.Lettered) := by
  have before (signed : ¬f.Lettered) : f.zoneText < c :: rest := by
    rcases f.zoneText_eq with ⟨_, empty⟩ | ⟨positive, _, rest', text⟩
    · rw [empty]
      exact List.nil_lt_cons ..
    · rw [text, List.cons_lt_cons_iff]
      exact .inl ((sign_below _ (not_le.mp signed) positive).trans_lt above)
  have after (lettered : f.Lettered) : c :: rest < f.zoneText := by
    obtain ⟨_, rank, rest', text⟩ := f.zoneText_eq.resolve_left (by omega)
    rw [text, List.cons_lt_cons_iff]
    exact .inl (below.trans_le (sign_above _ rank lettered))
  exact ⟨⟨fun h lettered => (after lettered).not_gt h, before⟩,
    ⟨fun h => not_not.mp fun signed => (before signed).not_gt h, after⟩⟩

/-! ### What stands behind the seconds -/

def digits (ds : List (Fin 10)) : List Char := ds.map fun d => Nat.digitChar d.val

theorem digitChar_lt_iff : ∀ d e : Fin 10, Nat.digitChar d.val < Nat.digitChar e.val ↔ d < e := by decide

theorem digitChar_between : ∀ d : Fin 10, '-' < Nat.digitChar d.val ∧ Nat.digitChar d.val < 'Z' := by decide

theorem suffix_of_whole {f : Form} (whole : f.fraction = []) : f.suffix = f.zoneText := by
  simp [suffix, whole]

theorem suffix_of_digits {f : Form} {d : Fin 10} {ds : List (Fin 10)} (h : f.fraction = d :: ds) :
    f.suffix = '.' :: digits (d :: ds) ++ f.zoneText := by
  rw [suffix, h]
  rfl

theorem suffix_append {f : Form} {p ds : List (Fin 10)} {d : Fin 10} (h : f.fraction = p ++ d :: ds) :
    f.suffix = '.' :: digits p ++ Nat.digitChar d.val :: (digits ds ++ f.zoneText) := by
  have whole : f.fraction.isEmpty = false := by simp [h]
  rw [suffix, whole, h]
  simp [digits]

theorem suffix_lt_iff_of_same {f g : Form} (same : f.fraction = g.fraction) :
    f.suffix < g.suffix ↔ f.zoneText < g.zoneText := by
  unfold suffix
  rw [same]
  exact prefix_lt_iff _

theorem suffix_lt_of_digit {f g : Form} {p ds es : List (Fin 10)} {d e : Fin 10} (h : f.fraction = p ++ d :: ds)
    (h' : g.fraction = p ++ e :: es) (smaller : d < e) : f.suffix < g.suffix := by
  rw [suffix_append h, suffix_append h', prefix_lt_iff, List.cons_lt_cons_iff]
  exact .inl ((digitChar_lt_iff d e).mpr smaller)

/-- Where the digits of one end, its zone decides. -/
theorem suffix_lt_iff_of_more {f g : Form} {d : Fin 10} {ds : List (Fin 10)}
    (more : g.fraction = f.fraction ++ d :: ds) :
    (f.suffix < g.suffix ↔ ¬f.Lettered) ∧ (g.suffix < f.suffix ↔ f.Lettered) := by
  cases whole : f.fraction with
  | nil =>
    rw [whole, List.nil_append] at more
    rw [suffix_of_whole whole, suffix_of_digits more]
    exact f.zoneText_beside (by decide) (by decide) _
  | cons x xs =>
    rw [whole] at more
    have between := digitChar_between d
    rw [suffix_of_digits whole, suffix_append more, prefix_lt_iff, prefix_lt_iff]
    exact f.zoneText_beside between.1 between.2 _

/-- What the zones and fractions behind the same fields have to satisfy, by the place where the digits differ. -/
structure SuffixesOrdered (f g : Form) : Prop where
  same : f.fraction = g.fraction → ZonesOrdered f g
  /-- The smaller digit is not written further west. -/
  digit (p ds es : List (Fin 10)) (d e : Fin 10) (left : f.fraction = p ++ d :: ds)
    (right : g.fraction = p ++ e :: es) :
    (d < e → g.offset ≤ f.offset) ∧ (e < d → f.offset ≤ g.offset)
  shorter (d : Fin 10) (ds : List (Fin 10)) (more : g.fraction = f.fraction ++ d :: ds) :
    f.Lettered ↔ f.offset < g.offset ∨ f.offset = g.offset ∧ ∀ x ∈ d :: ds, x = 0
  longer (d : Fin 10) (ds : List (Fin 10)) (more : f.fraction = g.fraction ++ d :: ds) :
    g.Lettered ↔ g.offset < f.offset

/-- Behind the same fields, the texts are ordered as the instants. -/
def Chronological (f g : Form) : Prop := f.suffix < g.suffix ↔ f.Earlier g

theorem chronological_of_same {f g : Form} (same : f.fraction = g.fraction) :
    Chronological f g ↔ ZonesOrdered f g := by
  unfold Chronological Earlier
  rw [suffix_lt_iff_of_same same, same, ← zonesOrdered_iff]
  simp

theorem chronological_of_smaller {f g : Form} {p ds es : List (Fin 10)} {d e : Fin 10}
    (left : f.fraction = p ++ d :: ds) (right : g.fraction = p ++ e :: es) (smaller : d < e) :
    Chronological f g ↔ g.offset ≤ f.offset := by
  unfold Chronological Earlier
  rw [iff_true_left (suffix_lt_of_digit left right smaller), left, right,
    and_iff_left (fractionValue_lt_of_digit p smaller ds es)]
  omega

theorem chronological_of_larger {f g : Form} {p ds es : List (Fin 10)} {d e : Fin 10}
    (left : f.fraction = p ++ d :: ds) (right : g.fraction = p ++ e :: es) (larger : e < d) :
    Chronological f g ↔ f.offset ≤ g.offset := by
  have behind := (suffix_lt_of_digit right left larger).not_gt
  have above := (fractionValue_lt_of_digit p larger es ds).not_gt
  unfold Chronological Earlier
  rw [iff_false_left behind, left, right, or_iff_left fun both => above both.2, not_lt]

theorem chronological_of_shorter {f g : Form} {d : Fin 10} {ds : List (Fin 10)}
    (more : g.fraction = f.fraction ++ d :: ds) :
    Chronological f g ↔
      (f.Lettered ↔ f.offset < g.offset ∨ f.offset = g.offset ∧ ∀ x ∈ d :: ds, x = 0) := by
  have opposite (zeros : Prop) : ¬(g.offset < f.offset ∨ f.offset = g.offset ∧ ¬zeros) ↔
      f.offset < g.offset ∨ f.offset = g.offset ∧ zeros := by
    by_cases zeros <;> simp [*] <;> omega
  unfold Chronological Earlier
  rw [(suffix_lt_iff_of_more more).1, more, fractionValue_lt_append_iff, not_iff_comm, opposite]
  exact iff_comm

theorem chronological_of_longer {f g : Form} {d : Fin 10} {ds : List (Fin 10)}
    (more : f.fraction = g.fraction ++ d :: ds) :
    Chronological f g ↔ (g.Lettered ↔ g.offset < f.offset) := by
  have above := (fractionValue_le_append g.fraction (d :: ds)).not_gt
  unfold Chronological Earlier
  rw [(suffix_lt_iff_of_more more).2, more, or_iff_left fun both => above both.2]

theorem suffixesOrdered_iff {f g : Form} : Chronological f g ↔ SuffixesOrdered f g := by
  constructor
  · intro ordered
    exact {
      same := fun same => (chronological_of_same same).mp ordered
      digit := fun p ds es d e left right =>
        ⟨fun smaller => (chronological_of_smaller left right smaller).mp ordered,
          fun larger => (chronological_of_larger left right larger).mp ordered⟩
      shorter := fun d ds more => (chronological_of_shorter more).mp ordered
      longer := fun d ds more => (chronological_of_longer more).mp ordered }
  · intro ordered
    rcases eq_or_differ f.fraction g.fraction with
      same | ⟨p, d, ds, e, es, left, right, other⟩ | ⟨e, es, more⟩ | ⟨d, ds, more⟩
    · exact (chronological_of_same same).mpr (ordered.same same)
    · rcases lt_or_gt_of_ne other with smaller | larger
      · exact (chronological_of_smaller left right smaller).mpr ((ordered.digit p ds es d e left right).1 smaller)
      · exact (chronological_of_larger left right larger).mpr ((ordered.digit p ds es d e left right).2 larger)
    · exact (chronological_of_shorter more).mpr (ordered.shorter e es more)
    · exact (chronological_of_longer more).mpr (ordered.longer d ds more)

end Form

namespace Timestamp

/-- `b` is written further east by fewer minutes than it is written later, or by as many and with more seconds. -/
def StaysBefore (a b : Timestamp) : Prop :=
  b.form.offset - a.form.offset < (b.writtenMinute : Int) - a.writtenMinute ∨
    b.form.offset - a.form.offset = (b.writtenMinute : Int) - a.writtenMinute ∧ a.seconds < b.seconds

theorem instant_lt_iff_staysBefore (a b : Timestamp) : a.instant < b.instant ↔ a.StaysBefore b := by
  rw [instant_lt_iff, StaysBefore]
  exact or_congr (by omega) (and_congr_left fun _ => by omega)

/-- Exactly when two texts are ordered as the instants: the offsets do not reverse the order of the fields as written,
and behind the same fields the zones and fractions are ordered. -/
structure Ordered (a b : Timestamp) : Prop where
  before : a.wall < b.wall → a.StaysBefore b
  after : b.wall < a.wall → ¬a.StaysBefore b
  same : a.wall = b.wall → a.form.SuffixesOrdered b.form

theorem chronological_iff (a b : Timestamp) :
    (replaceT a.text < replaceT b.text ↔ a.instant < b.instant) ↔ Ordered a b := by
  have order := replaceT_lt_iff a b
  rcases lt_trichotomy a.wall b.wall with before | same | after
  · rw [iff_true_left (order.mpr (.inl before)), instant_lt_iff_staysBefore]
    refine ⟨fun stays => ⟨fun _ => stays, fun after => ?_, fun same => ?_⟩, fun ordered => ordered.before before⟩
    · exact absurd after before.not_gt
    · exact absurd same before.ne
  · rw [order, or_iff_right (same ▸ lt_irrefl _), and_iff_right same, instant_lt_iff_of_wall same]
    refine Form.suffixesOrdered_iff.trans ⟨fun suffixes => ⟨fun before => ?_, fun after => ?_, fun _ => suffixes⟩,
      fun ordered => ordered.same same⟩
    · exact absurd same before.ne
    · exact absurd same after.ne'
  · have behind : ¬replaceT a.text < replaceT b.text := by
      rw [order]
      rintro (before | ⟨same, _⟩)
      · exact before.not_gt after
      · exact after.ne' same
    rw [iff_false_left behind, instant_lt_iff_staysBefore]
    refine ⟨fun passed => ⟨fun before => ?_, fun _ => passed, fun same => ?_⟩, fun ordered => ordered.after after⟩
    · exact absurd before after.not_gt
    · exact absurd same after.ne'

/-- Noon UTC, in the canonical form. -/
def noon : Timestamp where
  clock := UtcSecond.april21 12
  form := .canonical

/-- Eleven o'clock UTC, written two hours east of it. -/
def eleven : Timestamp where
  clock := UtcSecond.april21 13
  form := .rfc3339 .upper [] (.numeric true 2 0 (by decide))

example : eleven.text = "2026-04-21T13:00:00+02:00" := by decide

/-- The text of the earlier instant is the greater one. -/
theorem earlier_compares_greater : replaceT noon.text < replaceT eleven.text ∧ eleven.instant < noon.instant := by
  refine ⟨by decide, instant_lt_iff .. |>.mpr (.inl ?_)⟩
  decide

/-! ### Timestamps written alike -/

/-- The same zone, the same number of digits behind the point, and separators that normalise alike. -/
structure Alike (f g : Form) : Prop where
  rank : f.separator.rank = g.separator.rank
  digits : f.fraction.length = g.fraction.length
  zone : f.zoneText = g.zoneText
  offset : f.offset = g.offset

theorem Alike.symm {f g : Form} (h : Alike f g) : Alike g f :=
  ⟨h.rank.symm, h.digits.symm, h.zone.symm, h.offset.symm⟩

theorem staysBefore_of_wall_lt {a b : Timestamp} (alike : Alike a.form b.form) (h : a.wall < b.wall) :
    a.StaysBefore b := by
  have hour := a.clock.hour_lt
  have minute := a.clock.minute_lt
  have minute' := b.clock.minute_lt
  unfold StaysBefore writtenMinute seconds
  rw [alike.offset, sub_self]
  unfold wall at h
  rw [append_lt_append_iff (show a.dateFields.length = b.dateFields.length from rfl), List.cons_lt_cons_iff] at h
  rcases h with dates | ⟨dates, ranks | ⟨_, times⟩⟩
  · have days := dayNumber_lt a.real b.real dates
    left
    omega
  · exact absurd alike.rank ranks.ne
  obtain ⟨year, month, day⟩ :
      a.clock.year = b.clock.year ∧ a.clock.month = b.clock.month ∧ a.clock.day = b.clock.day := by
    simpa [dateFields] using dates
  rw [year, month, day]
  rcases List.cons_lt_cons_iff.mp times with hours | ⟨hours, rest⟩
  · left
    omega
  rcases List.cons_lt_cons_iff.mp rest with minutes | ⟨minutes, last⟩
  · left
    omega
  rcases List.cons_lt_cons_iff.mp last with seconds | ⟨_, impossible⟩
  · right
    have below := fractionValue_range a.form.fraction
    have below' := fractionValue_range b.form.fraction
    have step : (a.clock.second : Rat) + 1 ≤ b.clock.second := by exact_mod_cast seconds
    refine ⟨by omega, by linarith⟩
  · exact absurd impossible (List.not_lt_nil _)

theorem suffixesOrdered_of_alike {f g : Form} (alike : Alike f g) : f.SuffixesOrdered g where
  same _ := by
    rw [← Form.zonesOrdered_iff, alike.zone, alike.offset]
    simp
  digit _ _ _ _ _ _ _ := ⟨fun _ => alike.offset.ge, fun _ => alike.offset.le⟩
  shorter d ds more := by
    have length := alike.digits
    simp [more] at length
  longer d ds more := by
    have length := alike.digits
    simp [more] at length

/-- Timestamps that are all written alike are ordered as their instants. -/
theorem ordered_of_alike {a b : Timestamp} (alike : Alike a.form b.form) : Ordered a b where
  before := staysBefore_of_wall_lt alike
  after h := by
    rw [← instant_lt_iff_staysBefore]
    exact ((instant_lt_iff_staysBefore b a).mpr (staysBefore_of_wall_lt alike.symm h)).not_gt
  same _ := suffixesOrdered_of_alike alike

/-- Among timestamps written alike, last-writer-wins rejects what is not strictly later. -/
theorem isStale_iff_of_alike {a b : Timestamp} (alike : Alike a.form b.form) :
    isStale (some (replaceT b.text)) (some a.text) = true ↔ b.instant ≤ a.instant := by
  have order := (chronological_iff a b).mpr (ordered_of_alike alike)
  simp only [isStale, decide_eq_true_eq]
  rw [← not_lt, order, not_lt]

end Timestamp

end ConvergioMesh
