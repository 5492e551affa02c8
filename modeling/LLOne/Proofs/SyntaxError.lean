import LLOne.SyntaxError
import LLOne.Proofs.Text.Words
import LLOne.Proofs.Token
import Mathlib.Data.List.TakeWhile

/-!
# The line under which an error is shown

A source is its lines with line feeds between them, so a byte that begins a character of a line, or
ends the line, stands behind the lines before it and a part of its own line. The excerpt of an error
that starts at such a place has the line and, under it, blanks for this part and carets for what the
error spans of the rest. An error that starts anywhere else has no excerpt. The positions that are
computed on the way, counted in bytes from the start of the source, never leave their range.
-/

namespace LLOne

/-- A place in a line of the source, in front of the carriage returns at the end of the line. -/
structure Place (source : String) where
  /-- The lines before with their line feeds. -/
  before : List Char
  /-- The line up to the place. -/
  front : List Char
  /-- The line from the place on, up to the carriage returns. -/
  back : List Char
  returns : Nat
  after : List Char
  source_eq : source.toList = before ++ (front ++ back ++ List.replicate returns '\r') ++ after
  feed : '\n' ∉ front ++ back
  cut : (front ++ back).getLast? ≠ some '\r'
  before_ends : before = [] ∨ before.getLast? = some '\n'
  after_begins : after = [] ∨ after.head? = some '\n'

/-- The number of carets for the first `bytes` bytes of the characters: one for each character and
at least one, as far as there are characters, and one for bytes that end inside of a character. -/
inductive Carets (cs : List Char) (bytes : Nat) : Nat → Prop
  | span (span rest : List Char) (h : cs = span ++ rest) (hb : byteLength span = bytes) :
    Carets cs bytes (max span.length 1)
  | beyond (h : byteLength cs ≤ bytes) : Carets cs bytes (max cs.length 1)
  | inside (span rest : List Char) (c : Char) (h : cs = span ++ c :: rest)
    (hl : byteLength span < bytes) (hr : bytes < byteLength (span ++ [c])) : Carets cs bytes 1

def excerptRows (line : List Char) (indent carets : Nat) : String :=
  "    | " ++ String.ofList line ++ "\n    | " ++ Text.blanks indent ++
    String.ofList (List.replicate carets '^')

namespace Place

variable {source : String} (p : Place source)

def start : Nat := byteLength (p.before ++ p.front)

def excerpt (carets : Nat) : String := excerptRows (p.front ++ p.back) p.front.length carets

end Place

/-! ## The excerpt in positions of 64 bits -/

def sliceBytes? (start stop : Nat) (cs : List Char) : Option (List Char) :=
  if start ≤ stop then
    (takeBytes? start cs).bind fun before => (takeBytes? stop cs).map (·.drop before.length)
  else none

/-- As `excerptOf?`, with all positions counted from the start of the source and the first of the
lines starting at `lineStart`. -/
def excerptFrom (start stop : Nat) : Nat → List (List Char) → Except PositionError (Option String)
  | _, [] => .ok none
  | lineStart, line :: rest => do
    let lineStop ← Position.add lineStart (byteLength line)
    if start ≤ lineStop then
      let first ← Position.sub start lineStart
      let last ← Position.sub (← Position.clamp stop start lineStop) lineStart
      let cut := dropReturns line
      return (takeBytes? first cut).map fun before =>
        let width := ((sliceBytes? first (min last (byteLength cut)) cut).map List.length).getD 0
        excerptRows cut before.length (max width 1)
    else
      excerptFrom start stop (← Position.add lineStop 1) rest

def SyntaxError.renderFrom (e : SyntaxError) (source : String) : Except PositionError String := do
  match e.location with
  | none => return e.message
  | some l =>
    match ← excerptFrom l.start l.stop 0 (source.toList.splitOnP (· == '\n')) with
    | some excerpt => return e.message ++ "\n" ++ excerpt
    | none => return e.message

/-! ## Counting bytes -/

theorem byteLength_singleton (c : Char) : byteLength [c] = c.utf8Size := rfl

theorem takeBytes?_cons (c : Char) (n : Nat) (cs : List Char) :
    takeBytes? (c.utf8Size + n) (c :: cs) = (takeBytes? n cs).map (c :: ·) := by
  obtain ⟨k, hk⟩ := Nat.exists_eq_add_one_of_ne_zero (Nat.ne_of_gt c.utf8Size_pos)
  have hsucc : c.utf8Size + n = k + n + 1 := by omega
  rw [hsucc, takeBytes?, if_pos (by omega), ← hsucc, Nat.add_sub_cancel_left]

theorem takeBytes?_append (front : List Char) (n : Nat) (cs : List Char) :
    takeBytes? (byteLength front + n) (front ++ cs) = (takeBytes? n cs).map (front ++ ·) := by
  induction front with
  | nil => simp [byteLength]
  | cons c front ih =>
    rw [byteLength, Nat.add_assoc, List.cons_append, takeBytes?_cons, ih, Option.map_map]
    rfl

theorem takeBytes?_zero (cs : List Char) : takeBytes? 0 cs = some [] := by
  cases cs <;> rfl

theorem takeBytes?_byteLength (front cs : List Char) :
    takeBytes? (byteLength front) (front ++ cs) = some front := by
  have h := takeBytes?_append front 0 cs
  rwa [Nat.add_zero, takeBytes?_zero, Option.map_some, List.append_nil] at h

/-- What is taken is the part in front that has this many bytes. -/
theorem takeBytes?_eq_some_iff {n : Nat} {cs front : List Char} :
    takeBytes? n cs = some front ↔ (∃ rest, cs = front ++ rest) ∧ byteLength front = n := by
  constructor
  · intro h
    induction cs generalizing n front with
    | nil =>
      cases n with
      | zero =>
        obtain rfl := Option.some.inj h
        exact ⟨⟨[], rfl⟩, rfl⟩
      | succ n => cases h
    | cons c cs ih =>
      cases n with
      | zero =>
        obtain rfl := Option.some.inj h
        exact ⟨⟨c :: cs, rfl⟩, rfl⟩
      | succ n =>
        rw [takeBytes?] at h
        split at h
        · obtain ⟨rest, hrest, rfl⟩ := Option.map_eq_some_iff.1 h
          obtain ⟨⟨tail, rfl⟩, hlength⟩ := ih hrest
          refine ⟨⟨tail, rfl⟩, ?_⟩
          rw [byteLength, hlength]
          omega
        · cases h
  · rintro ⟨⟨rest, rfl⟩, rfl⟩
    exact takeBytes?_byteLength front rest

/-- Nothing is taken for bytes that end inside of the first character. -/
theorem takeBytes?_inside {c : Char} {n : Nat} (h0 : 0 < n) (hc : n < c.utf8Size)
    (cs : List Char) : takeBytes? n (c :: cs) = none := by
  obtain ⟨k, rfl⟩ := Nat.exists_eq_add_one_of_ne_zero (Nat.ne_of_gt h0)
  rw [takeBytes?, if_neg (by omega)]

/-! ## Carets -/

def caretCount (cs : List Char) (bytes : Nat) : Nat :=
  max (((takeBytes? (min bytes (byteLength cs)) cs).map List.length).getD 0) 1

theorem Carets.eq_caretCount {cs : List Char} {bytes n : Nat} (h : Carets cs bytes n) :
    n = caretCount cs bytes := by
  cases h with
  | span span rest h hb =>
    have hle : bytes ≤ byteLength cs := by
      rw [h, byteLength_append]
      omega
    rw [caretCount, Nat.min_eq_left hle, takeBytes?_eq_some_iff.2 ⟨⟨rest, h⟩, hb⟩]
    rfl
  | beyond h =>
    have htake : takeBytes? (byteLength cs) cs = some cs :=
      takeBytes?_eq_some_iff.2 ⟨⟨[], (List.append_nil cs).symm⟩, rfl⟩
    rw [caretCount, Nat.min_eq_right h, htake]
    rfl
  | inside span rest c h hl hr =>
    rw [byteLength_append, byteLength_singleton] at hr
    have hle : bytes ≤ byteLength cs := by
      rw [h, byteLength_append, byteLength]
      omega
    obtain ⟨k, rfl⟩ := Nat.exists_eq_add_of_lt hl
    rw [caretCount, Nat.min_eq_left hle, h, Nat.add_assoc, takeBytes?_append,
      takeBytes?_inside (by omega) (by omega)]
    rfl

theorem exists_carets (cs : List Char) (bytes : Nat) : ∃ n, Carets cs bytes n := by
  induction cs generalizing bytes with
  | nil => exact ⟨_, .beyond (Nat.zero_le bytes)⟩
  | cons c cs ih =>
    by_cases hbytes : bytes < c.utf8Size
    · by_cases h0 : bytes = 0
      · exact ⟨_, .span [] (c :: cs) rfl h0.symm⟩
      · exact ⟨1, .inside [] cs c rfl (Nat.pos_of_ne_zero h0) hbytes⟩
    · obtain ⟨k, rfl⟩ := Nat.exists_eq_add_of_le (Nat.le_of_not_lt hbytes)
      obtain ⟨n, hn⟩ := ih k
      cases hn with
      | span span rest h hb =>
        exact ⟨_, .span (c :: span) rest (by rw [h, List.cons_append]) (by rw [byteLength, hb])⟩
      | beyond h => exact ⟨_, .beyond (Nat.add_le_add_left h c.utf8Size)⟩
      | inside span rest d h hl hr =>
        refine ⟨1, .inside (c :: span) rest d (by rw [h, List.cons_append]) ?_ ?_⟩
        · exact Nat.add_lt_add_left hl c.utf8Size
        · exact Nat.add_lt_add_left hr c.utf8Size

theorem carets_iff {cs : List Char} {bytes n : Nat} :
    Carets cs bytes n ↔ n = caretCount cs bytes := by
  refine ⟨Carets.eq_caretCount, ?_⟩
  rintro rfl
  obtain ⟨m, hm⟩ := exists_carets cs bytes
  exact hm.eq_caretCount ▸ hm

/-! ## The end of a line -/

theorem dropReturns_append {cut : List Char} (h : cut.getLast? ≠ some '\r') (returns : Nat) :
    dropReturns (cut ++ List.replicate returns '\r') = cut := by
  have hreturns : ∀ c ∈ List.replicate returns '\r', (c == '\r') = true := by
    intro c hc
    rw [List.eq_of_mem_replicate hc]
    rfl
  have hcut : cut.reverse.dropWhile (· == '\r') = cut.reverse := by
    rw [List.getLast?_eq_head?_reverse] at h
    cases hr : cut.reverse with
    | nil => rfl
    | cons c rest =>
      rw [hr] at h
      rw [List.dropWhile_cons_of_neg]
      simpa using h
  rw [dropReturns, List.reverse_append, List.reverse_replicate,
    List.dropWhile_append_of_pos hreturns, hcut, List.reverse_reverse]

theorem exists_dropReturns (line : List Char) :
    (∃ returns, line = dropReturns line ++ List.replicate returns '\r') ∧
      (dropReturns line).getLast? ≠ some '\r' := by
  constructor
  · refine ⟨(line.reverse.takeWhile (· == '\r')).length, ?_⟩
    have hreturns : line.reverse.takeWhile (· == '\r') =
        List.replicate (line.reverse.takeWhile (· == '\r')).length '\r' := by
      refine List.eq_replicate_iff.2 ⟨rfl, fun c hc => ?_⟩
      simpa using List.mem_takeWhile_imp hc
    rw [dropReturns, ← List.reverse_replicate, ← hreturns, ← List.reverse_append,
      List.takeWhile_append_dropWhile, List.reverse_reverse]
  · rw [dropReturns, List.getLast?_reverse]
    have hnot := List.head?_dropWhile_not (· == '\r') line.reverse
    intro h
    rw [h] at hnot
    simp at hnot

/-- The underlined line has blanks for what stands before the start and carets behind it. -/
theorem underline?_append {front back : List Char} (hcut : (front ++ back).getLast? ≠ some '\r')
    (returns stop : Nat) :
    underline? (front ++ back ++ List.replicate returns '\r') (byteLength front) stop =
      some (excerptRows (front ++ back) front.length
        (caretCount back (stop - byteLength front))) := by
  have hstop : min (min (max stop (byteLength front))
        (byteLength (front ++ back ++ List.replicate returns '\r'))) (byteLength (front ++ back)) =
      byteLength front + min (stop - byteLength front) (byteLength back) := by
    simp only [byteLength_append]
    omega
  simp only [underline?, dropReturns_append hcut, takeBytes?_byteLength, hstop,
    takeBytes?_append, Option.map_some, caretCount, excerptRows]
  cases takeBytes? (min (stop - byteLength front) (byteLength back)) back with
  | none => rfl
  | some span => simp

/-! ## The lines of a source -/

def feedLines (ls : List (List Char)) : List Char := ls.flatMap (· ++ ['\n'])

theorem byteLength_feedLines_cons (line : List Char) (ls : List (List Char)) :
    byteLength (feedLines (line :: ls)) = byteLength line + 1 + byteLength (feedLines ls) := by
  rw [feedLines, List.flatMap_cons, byteLength_append, byteLength_append]
  rfl

theorem intercalate_append_cons (ls : List (List Char)) (line : List Char)
    (rest : List (List Char)) :
    ['\n'].intercalate (ls ++ line :: rest) =
      feedLines ls ++ line ++ rest.flatMap ('\n' :: ·) := by
  induction ls with
  | nil =>
    rw [List.nil_append, feedLines, List.flatMap_nil, List.nil_append]
    induction rest generalizing line with
    | nil => simp [List.intercalate]
    | cons next rest ih =>
      rw [List.intercalate_cons_cons, ih]
      simp
  | cons first ls ih =>
    obtain ⟨next, others, he⟩ := List.exists_cons_of_ne_nil
      (List.append_ne_nil_of_right_ne_nil ls (List.cons_ne_nil line rest))
    rw [List.cons_append, he, List.intercalate_cons_cons, ← he, ih]
    simp [feedLines]

theorem feedLines_splitOnP (cs : List Char) :
    feedLines (cs.splitOnP (· == '\n')) = cs ++ ['\n'] := by
  obtain ⟨ls, line, he⟩ := (List.eq_nil_or_concat' (cs.splitOnP (· == '\n'))).resolve_left
    (List.splitOnP_ne_nil _ cs)
  have hcs : ['\n'].intercalate (cs.splitOnP (· == '\n')) = cs := by
    rw [← List.splitOn_eq_splitOnP, List.intercalate_splitOn]
  rw [he, intercalate_append_cons] at hcs
  rw [he, ← hcs]
  simp [feedLines]

/-- The line of a place stands behind the lines before it. -/
theorem Place.splitOnP_eq {source : String} (p : Place source) :
    ∃ ls rest, feedLines ls = p.before ∧ source.toList.splitOnP (· == '\n') =
      ls ++ (p.front ++ p.back ++ List.replicate p.returns '\r') :: rest := by
  have hline : ∀ c ∈ p.front ++ p.back ++ List.replicate p.returns '\r', (c == '\n') = false := by
    intro c hc
    rcases List.mem_append.1 hc with hc | hc
    · exact beq_eq_false_iff_ne.2 (ne_of_mem_of_not_mem hc p.feed)
    · rw [List.eq_of_mem_replicate hc]
      decide
  have hback : ∃ rest, ((p.front ++ p.back ++ List.replicate p.returns '\r') ++ p.after).splitOnP
      (· == '\n') = (p.front ++ p.back ++ List.replicate p.returns '\r') :: rest := by
    rcases p.after_begins with ha | ha
    · exact ⟨[], by rw [ha, List.append_nil, List.splitOnP_eq_singleton hline]⟩
    · obtain ⟨after, ha⟩ := List.head?_eq_some_iff.1 ha
      refine ⟨after.splitOnP (· == '\n'), ?_⟩
      rw [ha, List.splitOnP_append_cons _ _ (by decide), List.splitOnP_eq_singleton hline,
        List.singleton_append]
  obtain ⟨rest, hrest⟩ := hback
  rw [p.source_eq, List.append_assoc]
  rcases p.before_ends with hb | hb
  · exact ⟨[], rest, by rw [hb]; rfl, by rw [hb, List.nil_append, hrest, List.nil_append]⟩
  · obtain ⟨before, hb⟩ := List.getLast?_eq_some_iff.1 hb
    refine ⟨before.splitOnP (· == '\n'), rest, by rw [feedLines_splitOnP, hb], ?_⟩
    rw [hb, List.append_assoc, List.singleton_append,
      List.splitOnP_append_cons _ _ (by decide), hrest]

/-- A part of a line of the source is a place, if it does not reach into its carriage returns. -/
theorem exists_place {source : String} {ls rest : List (List Char)} {line front : List Char}
    (hs : source.toList.splitOnP (· == '\n') = ls ++ line :: rest)
    (hf : ∃ back, dropReturns line = front ++ back) :
    ∃ p : Place source, p.start = byteLength (feedLines ls) + byteLength front := by
  obtain ⟨back, hback⟩ := hf
  obtain ⟨⟨returns, hreturns⟩, hcut⟩ := exists_dropReturns line
  have hfeed : '\n' ∉ line := by
    have hmem : line ∈ source.toList.splitOnP (· == '\n') := by simp [hs]
    intro hn
    exact absurd (Text.of_mem_splitOnP hmem _ hn) (by decide)
  have hsource : source.toList = feedLines ls ++ line ++ rest.flatMap ('\n' :: ·) := by
    rw [← intercalate_append_cons, ← hs, ← List.splitOn_eq_splitOnP, List.intercalate_splitOn]
  rw [hback] at hreturns hcut
  refine ⟨⟨feedLines ls, front, back, returns, rest.flatMap ('\n' :: ·), ?_, ?_, hcut, ?_, ?_⟩, ?_⟩
  · rw [hsource, ← hreturns]
  · intro hn
    exact hfeed (hreturns ▸ List.mem_append_left _ hn)
  · rcases List.eq_nil_or_concat' ls with rfl | ⟨ls, last, rfl⟩
    · exact .inl rfl
    · exact .inr (by simp [feedLines])
  · cases rest with
    | nil => exact .inl rfl
    | cons next rest => exact .inr rfl
  · exact byteLength_append _ _

/-! ## The line of an error -/

theorem excerptOf?_append (ls rest : List (List Char)) (first stop : Nat) :
    excerptOf? (ls ++ rest) (byteLength (feedLines ls) + first) stop =
      excerptOf? rest first (stop - byteLength (feedLines ls)) := by
  induction ls generalizing stop with
  | nil => simp [feedLines, byteLength]
  | cons line ls ih =>
    have hfirst : byteLength line + 1 + byteLength (feedLines ls) + first - (byteLength line + 1) =
        byteLength (feedLines ls) + first := by
      omega
    rw [byteLength_feedLines_cons, List.cons_append, excerptOf?, if_neg (by omega), hfirst, ih,
      Nat.sub_sub]

/-- An error that starts at a place is shown there. -/
theorem Place.excerpt?_eq {source : String} (p : Place source) (stop : Nat) :
    Location.excerpt? ⟨p.start, stop⟩ source =
      some (p.excerpt (caretCount p.back (stop - p.start))) := by
  obtain ⟨ls, rest, hbefore, hsplit⟩ := p.splitOnP_eq
  have hstart : p.start = byteLength (feedLines ls) + byteLength p.front := by
    rw [start, byteLength_append, hbefore]
  have hle : byteLength p.front ≤
      byteLength (p.front ++ p.back ++ List.replicate p.returns '\r') := by
    rw [List.append_assoc, byteLength_append]
    omega
  rw [Location.excerpt?, hsplit, hstart, excerptOf?_append, excerptOf?, if_pos hle,
    underline?_append p.cut, excerpt, Nat.sub_add_eq]

theorem exists_place_of_excerptOf? {source : String} {ls rest : List (List Char)}
    {first stop : Nat} {text : String}
    (hs : source.toList.splitOnP (· == '\n') = ls ++ rest)
    (h : excerptOf? rest first stop = some text) :
    ∃ p : Place source, p.start = byteLength (feedLines ls) + first := by
  induction rest generalizing ls first stop with
  | nil => cases h
  | cons line rest ih =>
    rw [excerptOf?] at h
    split at h
    · obtain ⟨front, hfront, -⟩ := Option.map_eq_some_iff.1 h
      obtain ⟨hpart, rfl⟩ := takeBytes?_eq_some_iff.1 hfront
      exact exists_place hs hpart
    next hlt =>
      rw [List.append_cons] at hs
      obtain ⟨p, hp⟩ := ih hs h
      refine ⟨p, ?_⟩
      rw [hp, feedLines, List.flatMap_append, byteLength_append, ← feedLines, ← feedLines,
        byteLength_feedLines_cons]
      simp only [feedLines, List.flatMap_nil, byteLength]
      omega

theorem exists_place_of_excerpt? {source : String} {l : Location} {text : String}
    (h : l.excerpt? source = some text) : ∃ p : Place source, p.start = l.start := by
  have hlines : source.toList.splitOnP (· == '\n') = [] ++ source.toList.splitOnP (· == '\n') := rfl
  obtain ⟨p, hp⟩ := exists_place_of_excerptOf? hlines h
  refine ⟨p, ?_⟩
  rw [hp, feedLines, List.flatMap_nil, byteLength, Nat.zero_add]

/-! ## Positions that stay in their range -/

/-- The characters of a slice are those up to its end without those before it. -/
theorem length_sliceBytes? {start stop : Nat} {cs before : List Char} (hle : start ≤ stop)
    (hb : takeBytes? start cs = some before) :
    ((sliceBytes? start stop cs).map List.length).getD 0 =
      match takeBytes? stop cs with
      | some upTo => upTo.length - before.length
      | none => 0 := by
  rw [sliceBytes?, if_pos hle, hb, Option.bind_some, Option.map_map]
  cases takeBytes? stop cs with
  | none => rfl
  | some upTo => exact List.length_drop

/-- As long as a position fits behind every line, none that is computed leaves its range. -/
theorem excerptFrom_eq {start stop lineStart : Nat} {ls : List (List Char)}
    (hle : lineStart ≤ start) (hfit : lineStart + byteLength (feedLines ls) < 2 ^ 64) :
    excerptFrom start stop lineStart ls =
      .ok (excerptOf? ls (start - lineStart) (stop - lineStart)) := by
  induction ls generalizing lineStart with
  | nil => rfl
  | cons line ls ih =>
    rw [byteLength_feedLines_cons] at hfit
    rw [excerptFrom, Position.add, if_pos (by omega), excerptOf?]
    by_cases hline : start ≤ lineStart + byteLength line
    · have hlast : min (max stop start) (lineStart + byteLength line) - lineStart =
          min (max (stop - lineStart) (start - lineStart)) (byteLength line) := by
        omega
      simp only [Position.sub, Position.clamp, if_pos hle, if_pos hline,
        if_pos (show start - lineStart ≤ byteLength line by omega),
        if_pos (show lineStart ≤ min (max stop start) (lineStart + byteLength line) by omega),
        hlast, underline?, pure, Except.pure, bind, Except.bind]
      refine congrArg Except.ok (Option.map_congr fun before hbefore => ?_)
      obtain ⟨⟨rest, hcut⟩, hbytes⟩ := takeBytes?_eq_some_iff.1 hbefore
      have hwithin : start - lineStart ≤ byteLength (dropReturns line) := by
        rw [hcut, byteLength_append]
        omega
      exact congrArg (fun width => excerptRows (dropReturns line) before.length (max width 1))
        (length_sliceBytes? (by omega) hbefore)
    · have hnext : lineStart + (byteLength line + 1) ≤ start := by
        omega
      simp only [if_neg hline, if_neg (show ¬start - lineStart ≤ byteLength line by omega),
        Position.add, if_pos (show lineStart + byteLength line + 1 < 2 ^ 64 by omega),
        bind, Except.bind]
      rw [Nat.add_assoc, ih hnext (by omega), Nat.sub_sub, Nat.sub_sub]

namespace SyntaxError

theorem renderFrom_eq (e : SyntaxError) {source : String} (hsize : source.utf8ByteSize < 2 ^ 63) :
    e.renderFrom source = .ok (e.render source) := by
  rcases hl : e.location with _ | l
  · simp only [renderFrom, render, hl, Option.bind_none]
    rfl
  · have hfit : 0 + byteLength (feedLines (source.toList.splitOnP (· == '\n'))) < 2 ^ 64 := by
      rw [feedLines_splitOnP, byteLength_append, byteLength_toList, byteLength_singleton]
      change 0 + (source.utf8ByteSize + 1) < 2 ^ 64
      omega
    simp only [renderFrom, render, hl, Option.bind_some, excerptFrom_eq (Nat.zero_le l.start) hfit,
      Location.excerpt?, Nat.sub_zero]
    cases excerptOf? (source.toList.splitOnP (· == '\n')) l.start l.stop <;> rfl

/-- An error that starts at a place of the source is shown under the line of the place, with as many
blanks as there are characters before it and carets for what it spans of the line; any other error
is its message. No position that is computed on the way leaves its range, in no source that fits
into memory, whatever the location is. -/
theorem render_exact (e : SyntaxError) (source : String) :
    (∀ (p : Place source) (stop : Nat), e.location = some ⟨p.start, stop⟩ →
      ∃ n, (∀ m, Carets p.back (stop - p.start) m ↔ m = n) ∧
        e.render source = e.message ++ "\n" ++ p.excerpt n) ∧
      (∀ l, e.location = some l → (∀ p : Place source, p.start ≠ l.start) →
        e.render source = e.message) ∧
      (e.location = none → e.render source = e.message) ∧
      (source.utf8ByteSize < 2 ^ 63 → e.renderFrom source = .ok (e.render source)) := by
  refine ⟨fun p stop hl => ⟨caretCount p.back (stop - p.start), fun m => carets_iff, ?_⟩,
    fun l hl hno => ?_, fun hl => ?_, renderFrom_eq e⟩
  · rw [render, hl, Option.bind_some, p.excerpt?_eq]
  · rcases hx : l.excerpt? source with _ | text
    · rw [render, hl, Option.bind_some, hx]
    · obtain ⟨p, hp⟩ := exists_place_of_excerpt? hx
      exact absurd hp (hno p)
  · rw [render, hl, Option.bind_none]

def accentedSource : String := "x\r\né← λy;\r\n"

def accentedPlace : Place accentedSource where
  before := ['x', '\r', '\n']
  front := ['é', '←', ' ']
  back := ['λ', 'y', ';']
  returns := 1
  after := ['\n']
  source_eq := rfl
  feed := by decide
  cut := by decide
  before_ends := .inr rfl
  after_begins := .inr rfl

def accentedError (l : Option Location) : SyntaxError :=
  ⟨.noProduction, l, some "λy", some "<E>", "unexpected token"⟩

/-- Three blanks for six bytes and two carets for three; none of this inside of a character and none
without a location. -/
theorem render_exact_accented :
    (accentedError (some ⟨9, 12⟩)).render accentedSource =
        "syntax error near word \"λy\": unexpected token\n    | é← λy;\n    |    ^^" ∧
      (accentedError (some ⟨4, 12⟩)).render accentedSource =
        "syntax error near word \"λy\": unexpected token" ∧
      (accentedError none).render accentedSource =
        "syntax error near word \"λy\": unexpected token" ∧
      (accentedError (some ⟨12, 2 ^ 64⟩)).renderFrom accentedSource =
        .ok ((accentedError (some ⟨12, 2 ^ 64⟩)).render accentedSource) := by
  have hinside : ∀ p : Place accentedSource, p.start ≠ 4 := by
    intro p hp
    have hnone : Location.excerpt? ⟨4, 12⟩ accentedSource = none := by decide
    have hsome := p.excerpt?_eq 12
    rw [hp, hnone] at hsome
    cases hsome
  obtain ⟨n, hn, hrender⟩ := (render_exact (accentedError (some ⟨9, 12⟩)) accentedSource).1
    accentedPlace 12 rfl
  have htwo : 2 = n := (hn 2).1 (.span ['λ', 'y'] [';'] rfl rfl)
  refine ⟨?_, ?_, ?_, ?_⟩
  · rw [hrender, ← htwo]
    decide
  · exact (render_exact (accentedError (some ⟨4, 12⟩)) accentedSource).2.1 _ rfl hinside
  · exact (render_exact (accentedError none) accentedSource).2.2.1 rfl
  · exact (render_exact (accentedError (some ⟨12, 2 ^ 64⟩)) accentedSource).2.2.2 (by decide)

end SyntaxError

end LLOne
