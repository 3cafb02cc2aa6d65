import Mathlib.Data.List.Nodup
import ServiceLang.Proofs.Region.Beside
import ServiceLang.Proofs.Region.Cut
import ServiceLang.Proofs.Region.Opened

/-!
The body of a region bears on nothing outside the region.

Take a region `h{body}` behind `a`, and another body that makes a region of its own with
the same head.  The scanner comes to the brace behind `a ++ h` in one state, whatever the
body is (`Reads.swap`), and behind either body two scanners stand side by side
(`besides_of_bodies`).  Hence the text with the other body is cut like the first: the same
regions before this one, and those behind it moved by the difference of the lengths, with
the same main text around it (`resized_of_cut`).
-/

namespace ServiceLang.Region

def braced (h body : List Char) : List Char := h ++ '{' :: (body ++ ['}'])

/-- Behind `a ++ h` the scanner reads a region that starts behind `a`, and the brace that
comes there is the first one of it that counts. -/
def IsHead (a h : List Char) : Prop :=
  ∃ s kind below, Reads .start (a ++ h ++ ['{']) s ['{'] ∧
    s.stack = .region kind (byteLength a) 0 false :: below

/-- The state of the scanner behind a text that `rest` follows. -/
def Scan.behind? (s : Scan) (rest : List Char) : List Char → Option Scan
  | [] => some s
  | c :: k =>
    match step s c (k ++ rest) with
    | .error _ => none
    | .ok t => t.behind? rest k

theorem Scan.reads_of_behind? {s t : Scan} {k rest : List Char} (h : s.behind? rest k = some t) :
    Reads s (k ++ rest) t rest := by
  induction k generalizing s with
  | nil =>
    cases h
    exact .done _ rest
  | cons c k ih =>
    unfold Scan.behind? at h
    split at h
    · cases h
    · next hst => exact .step hst (ih h)

/-- The innermost frame is a region that starts here and has not come to its first brace. -/
def Scan.isUnopened (start : Nat) (s : Scan) : Bool :=
  match s.stack with
  | .region _ x 0 false :: _ => x = start
  | _ => false

/-- Running the text in front of a brace shows whether the brace is the first one of a region. -/
theorem isHead_of_behind? {a h : List Char}
    (hs : (Scan.start.behind? ['{'] (a ++ h)).any (Scan.isUnopened (byteLength a))) : IsHead a h := by
  obtain ⟨s, hs, hst⟩ := (Option.any_eq_true _ _).1 hs
  unfold Scan.isUnopened at hst
  split at hst
  · next kind x below hstack =>
    obtain rfl := of_decide_eq_true hst
    exact ⟨s, kind, below, Scan.reads_of_behind? hs, hstack⟩
  · cases hst

/-! ## The region itself -/

/-- Regions that stand in order start at different places. -/
theorem eq_of_start_eq {regions : List Region} {r r' : Region}
    (h : regions.Pairwise fun a b => a.start < b.start ∧ a.stop ≤ b.start) (hr : r ∈ regions)
    (hr' : r' ∈ regions) (heq : r.start = r'.start) : r = r' := by
  refine List.inj_on_of_nodup_map (f := Region.start) ?_ hr hr' heq
  exact List.pairwise_map.2 (h.imp fun hab => Nat.ne_of_lt hab.1)

/-- The text from the first brace of a region that is found to its end. -/
theorem bracesTo_of_mem {text k zs : List Char} {s : Scan} {kind : Kind} {start : Nat}
    {below : List Frame} {regions : List Region} {r : Region} (h : Reads .start text s (k ++ zs))
    (hs : s.stack = .region kind start 0 false :: below) (hf : find text = .ok regions)
    (hr : r ∈ regions) (hstart : r.start = start) (hstop : r.stop = s.offset + byteLength k) :
    BracesTo 0 k ∧ r.kind = kind := by
  obtain ⟨t, ht, hcl, hregions⟩ := (find_eq_ok_iff text regions).1 hf
  have hrest := ht.rest h
  obtain ⟨l, ys, hsplit, hl⟩ := exists_bracesTo kind start below 0 s t (k ++ zs) hs hrest hcl
  have hread : Reads s (k ++ zs) (s.closeRegion kind start below l) ys := by
    rw [hsplit]
    exact Reads.region kind start below hl s hs ys
  obtain ⟨more, hmore⟩ := (hrest.rest hread).exists_found
  have hmem : ⟨kind, start, s.offset + byteLength l⟩ ∈ regions := by
    rw [hregions, List.mem_reverse, hmore]
    simp [Scan.closeRegion]
  obtain rfl := eq_of_start_eq (placed_of_find hf).2 hr hmem hstart
  have hlen : byteLength k = byteLength l := by
    dsimp only at hstop
    omega
  have htake := takeBytes_append k zs
  rw [hsplit, hlen, takeBytes_append] at htake
  exact ⟨htake ▸ hl, rfl⟩

/-! ## The head alone -/

/-- What opens a region behind some text opens it at the start of a text. -/
theorem OpensRegion.start {s : Scan} {c : Char} {rest : List Char} {kind : Kind}
    (h : OpensRegion s c rest kind) : OpensRegion .start c rest kind := by
  refine ⟨h.isWordChar, rfl, ?_, h.execAt⟩
  have hk := h.headAt
  unfold Region.headAt declares? at hk
  split at hk
  · cases hk
  · exact hk

/-- At the opening of a region the step is that of a scanner at the start of a text. -/
theorem Opening.exists_step {s : Scan} {c : Char} {rest : List Char} (h : Opening s c rest) :
    ∃ t t', step s c rest = .ok t ∧ step .start c rest = .ok t' ∧ t.Beside s.offset 0 s.found [] t' := by
  have steps {t t' : Scan} (ht : CodeStep s (.main 0) [] c rest t)
      (ht' : CodeStep .start (.main 0) [] c rest t') (hb : t.Beside s.offset 0 s.found [] t') :
      ∃ t t', step s c rest = .ok t ∧ step .start c rest = .ok t' ∧
        t.Beside s.offset 0 s.found [] t' :=
    ⟨t, t', (step_code_iff s t _ _ c rest h.stack_eq trivial).2 ht,
      (step_code_iff .start t' _ _ c rest rfl trivial).2 ht', hb⟩
  have hstack : List.Forall₂ (Frame.Beside s.offset 0) s.stack [.main 0] := by
    rw [h.stack_eq]
    exact .cons (.main 0) .nil
  have hfound : ∃ new new', s.found = new ++ s.found ∧ ([] : List Region) = new' ++ [] ∧
      List.Forall₂ (Moved s.offset 0) new new' := ⟨[], [], rfl, rfl, .nil⟩
  rcases h.begins with ⟨rfl, hp⟩ | ⟨kind, hopens, hstart⟩
  · have hpending : Option.Rel (fun x y => x + 0 = y + s.offset) (some (s.pending.getD s.offset))
        (some 0) := .some (by rw [hp]; simp)
    have beside : { s.advance '@' with pending := some (s.pending.getD s.offset) }.Beside s.offset 0
        s.found [] { Scan.start.advance '@' with pending := some 0 } :=
      ⟨.solid [] rfl nofun, by simp [Scan.start]; omega, hstack, hpending,
        hfound⟩
    cases ha : argumentsAhead? rest with
    | none => exact steps (.withoutArguments rfl ha) (.withoutArguments rfl ha) beside
    | some gap =>
      refine steps (.withArguments rfl ha) (.withArguments rfl ha) (beside.push (.annotationArgs ?_))
      simp [Scan.start]
      omega
  · have hstart' : Scanned.regionStart .start kind = 0 := by cases kind <;> rfl
    have hblank := isBlank_eq_false_of_isWordChar c hopens.isWordChar
    refine steps hopens.codeStep hopens.start.codeStep (Scan.Beside.push
      ⟨.solid [] hblank fun _ => ⟨?_, rfl⟩, by simp [Scan.start]; omega, hstack,
        .none, hfound⟩ (.region kind 0 false ?_))
    · -- the word does not run on from what is before it
      have hi := hopens.insideWord
      unfold insideWord at hi
      cases hb : s.before with
      | nil => rfl
      | cons x before =>
        rw [hb] at hi
        exact (Bool.or_eq_false_iff.1 hi).1
    · rw [hstart, hstart']
      omega

/-- The head is read alone as it is read behind `a`. -/
theorem IsHead.alone {a h : List Char} (hh : IsHead a h) : IsHead [] h := by
  obtain ⟨s, kind, below, hs, hst⟩ := hh
  obtain ⟨u, c, rest, hu, hus, ho, hopening⟩ := hs.exists_opening hst
  obtain ⟨htext, hoffset⟩ := hu.before_start
  have hrest : c :: rest = h ++ ['{'] := by
    have hdrop := dropBytes_append u.before.reverse (c :: rest)
    rw [← hoffset, ho, ← htext, List.append_assoc, dropBytes_append] at hdrop
    exact hdrop.symm
  obtain ⟨t, t', ht, ht', hbeside⟩ := hopening.exists_step
  cases hus with
  | done =>
    -- the state before the brace is not that of the opening
    rw [hopening.stack_eq] at hst
    cases hst
  | step hst' hus =>
    rw [ht] at hst'
    cases hst'
    obtain ⟨s', hs', hbeside⟩ := hbeside.reads hus
    have hstack := hbeside.stack
    rw [hst, ho] at hstack
    obtain ⟨f, below', hf, -, hst'⟩ := List.forall₂_cons_left_iff.1 hstack
    cases hf with
    | @region x y _ _ _ hxy =>
    obtain rfl : y = 0 := by omega
    refine ⟨s', kind, below', ?_, hst'⟩
    rw [List.nil_append, ← hrest]
    exact .step ht' hs'

/-! ## The text with another body -/

variable {a h b : List Char}

/-- What the scanner has in front of the first brace of a region at the start of a text. -/
theorem IsHead.reads {a h : List Char} (hh : IsHead a h) (ys : List Char) :
    ∃ s kind, Reads .start (a ++ h ++ '{' :: ys) s ('{' :: ys) ∧
      s.stack = [.region kind (byteLength a) 0 false, .main 0] ∧ s.pending = none ∧
      s.offset = byteLength (a ++ h) := by
  obtain ⟨s, kind, below, hs, hst⟩ := hh
  obtain ⟨rfl, hp⟩ := hs.settled hst
  have hs := hs.swap ys
  obtain ⟨htext, hoffset⟩ := hs.before_start
  refine ⟨s, kind, hs, hst, hp, ?_⟩
  rw [hoffset, ← List.append_cancel_right htext]

/-- A head with a body is a region by itself: it closes the braces that it opens. -/
theorem bracesTo_of_alone {body : List Char} {regions : List Region} (hh : IsHead [] h)
    (hf : find (braced h body) = .ok regions)
    (hr : ∃ kind, ⟨kind, 0, byteLength (braced h body)⟩ ∈ regions) :
    BracesTo 0 ('{' :: (body ++ ['}'])) := by
  obtain ⟨kind, hr⟩ := hr
  obtain ⟨s, kind', hs, hst, -, ho⟩ := hh.reads (body ++ ['}'])
  have hs : Reads .start (braced h body) s ('{' :: (body ++ ['}']) ++ []) := by
    rw [List.append_nil]
    exact hs
  refine (bracesTo_of_mem hs hst hf hr rfl ?_).1
  rw [ho, braced, byteLength_append, byteLength_append]
  simp

/-- Behind either body, two scanners stand side by side. -/
theorem find_of_bodies {body body' : List Char} {regions : List Region} {r : Region}
    (hh : IsHead a h) (hf : find (a ++ braced h body ++ b) = .ok regions) (hr : r ∈ regions)
    (hstart : r.start = byteLength a) (hstop : r.stop = byteLength (a ++ braced h body))
    (hbody : BracesTo 0 ('{' :: (body' ++ ['}']))) :
    ∃ before after regions' after',
      regions = before ++ r :: after ∧ find (a ++ braced h body' ++ b) = .ok regions' ∧
      regions' = before ++ ⟨r.kind, r.start, byteLength (a ++ braced h body')⟩ :: after' ∧
      List.Forall₂ (Moved (byteLength (braced h body)) (byteLength (braced h body'))) after after' := by
  have text (x : List Char) : a ++ braced h x ++ b = a ++ h ++ ('{' :: (x ++ ['}']) ++ b) := by
    simp [braced]
  have length (x : List Char) :
      byteLength (a ++ h) + byteLength ('{' :: (x ++ ['}'])) = byteLength (a ++ braced h x) := by
    rw [braced, byteLength_append, byteLength_append, byteLength_append, Nat.add_assoc]
  obtain ⟨s, kind, hs, hst, hp, ho⟩ := hh.reads (body ++ ['}'] ++ b)
  have hs' : Reads .start (a ++ braced h body' ++ b) s ('{' :: (body' ++ ['}']) ++ b) := by
    rw [text]
    exact hs.swap (body' ++ ['}'] ++ b)
  have hs : Reads .start (a ++ braced h body ++ b) s ('{' :: (body ++ ['}']) ++ b) := by
    rw [text]
    exact hs
  obtain ⟨hk, hkind⟩ := bracesTo_of_mem hs hst hf hr hstart (by rw [hstop, ho, length])
  let e := s.closeRegion kind (byteLength a) [.main 0] ('{' :: (body ++ ['}']))
  let e' := s.closeRegion kind (byteLength a) [.main 0] ('{' :: (body' ++ ['}']))
  have he : Reads s ('{' :: (body ++ ['}']) ++ b) e b := Reads.region kind _ _ hk s hst b
  have he' : Reads s ('{' :: (body' ++ ['}']) ++ b) e' b := Reads.region kind _ _ hbody s hst b
  have before (x : List Char) :
      ('{' :: (x ++ ['}'])).reverse ++ s.before = [] ++ '}' :: (('{' :: x).reverse ++ s.before) := by
    simp
  have beside : e.Beside (byteLength (braced h body)) (byteLength (braced h body')) e.found e'.found
      e' := by
    refine ⟨?_, ?_, .cons (.main 0) .nil, ?_, ⟨[], [], rfl, rfl, .nil⟩⟩
    · show SameBehind (_ ++ _) (_ ++ _)
      rw [before, before]
      exact .solid [] rfl nofun
    · have h₁ := length body
      have h₂ := length body'
      rw [byteLength_append a (braced h _)] at h₁ h₂
      simp only [e, e', Scan.closeRegion, Scan.offset_after]
      omega
    · show Option.Rel _ s.pending s.pending
      rw [hp]
      exact .none
  obtain ⟨new, new', rfl, hf', hmoved⟩ := beside.find (hs.trans he) (hs'.trans he') hf
  have hfound : e.found = r :: s.found := by
    have hregion : r = ⟨kind, byteLength a, s.offset + byteLength ('{' :: (body ++ ['}']))⟩ := by
      rw [← hkind, ← hstart, ho, length, ← hstop]
    rw [hregion]
    rfl
  have hfound' : e'.found = ⟨r.kind, r.start, byteLength (a ++ braced h body')⟩ :: s.found := by
    rw [hkind, hstart, ← length body', ← ho]
    rfl
  refine ⟨s.found.reverse, new, _, new', ?_, hf', ?_, hmoved⟩
  · rw [hfound]
    simp
  · rw [hfound']
    simp

/-! ## The main text around a region -/

/-- Which of the regions cover a byte before, in and behind one of them. -/
theorem isCovered_split {before after : List Region} {r : Region} (offset : Nat)
    (h : (before ++ r :: after).Pairwise fun a b => a.start < b.start ∧ a.stop ≤ b.start)
    (hr : r.start < r.stop) :
    isCovered (before ++ r :: after) offset =
      if offset < r.start then isCovered before offset
      else if offset < r.stop then true else isCovered after offset := by
  obtain ⟨-, hafter, hbefore⟩ := List.pairwise_append.1 h
  have hafter := (List.pairwise_cons.1 hafter).1
  have hbefore := fun x hx => hbefore x hx r List.mem_cons_self
  have before_none (ho : r.start ≤ offset) : isCovered before offset = false := by
    refine List.any_eq_false.2 fun x hx => ?_
    have := (hbefore x hx).2
    simp [covers]
    omega
  have after_none (ho : offset < r.stop) : isCovered after offset = false := by
    refine List.any_eq_false.2 fun x hx => ?_
    have := (hafter x hx).2
    simp [covers]
    omega
  have split : isCovered (before ++ r :: after) offset =
      (isCovered before offset || (covers r offset || isCovered after offset)) := by
    simp [isCovered]
  rw [split]
  split
  · next ho => simp [after_none (by omega : offset < r.stop), covers, ho]
  next ho =>
  rw [before_none (by omega)]
  split
  · next hs => simp [covers, hs]; omega
  · next hs => simp [covers, hs]

/-- The main text before, in and behind a region. -/
theorem overwrite_split {before after : List Region} {kind : Kind} {a d b : List Char}
    (h : (before ++ ⟨kind, byteLength a, byteLength (a ++ d)⟩ :: after).Pairwise
      fun a b => a.start < b.start ∧ a.stop ≤ b.start)
    (hd : byteLength a < byteLength (a ++ d)) :
    overwrite (before ++ ⟨kind, byteLength a, byteLength (a ++ d)⟩ :: after) 0 (a ++ d ++ b) =
      overwrite before 0 a ++ d.flatMap blankFor ++ overwrite after (byteLength (a ++ d)) b := by
  rw [overwrite_append, overwrite_append, Nat.zero_add, Nat.zero_add]
  congr 1
  congr 1
  · refine overwrite_congr fun i hi => ?_
    rw [isCovered_split _ h hd, if_pos (by dsimp only; omega)]
  · refine overwrite_of_covered fun i hi => ?_
    rw [isCovered_split _ h hd, if_neg (by dsimp only; omega), if_pos]
    rw [byteLength_append]
    dsimp only
    omega
  · refine overwrite_congr fun i hi => ?_
    rw [isCovered_split _ h hd, if_neg, if_neg]
    all_goals
      dsimp only
      omega

theorem isCovered_of_moved {n m o o' : Nat} {regions regions' : List Region}
    (h : List.Forall₂ (Moved n m) regions regions') (ho : o + m = o' + n) :
    isCovered regions o = isCovered regions' o' := by
  induction h with
  | nil => rfl
  | @cons r r' _ _ hr _ ih =>
    unfold isCovered at ih ⊢
    rw [List.any_cons, List.any_cons, ih]
    have hstart := hr.start_eq
    have hstop := hr.stop_eq
    have hcovers : covers r o = covers r' o' := by
      unfold covers
      congr 1 <;> exact decide_eq_decide.2 (by omega)
    rw [hcovers]

/-- The cuts of two texts that have the declarations `d` and `d'` between the same texts
agree on everything around the declarations. -/
structure Resized (a d d' : List Char) (c c' : Cut) (kind : Kind) (before after after' : List Region)
    (front back : List Char) : Prop where
  regions_eq : c.regions = before ++ ⟨kind, byteLength a, byteLength (a ++ d)⟩ :: after
  regions_eq' : c'.regions = before ++ ⟨kind, byteLength a, byteLength (a ++ d')⟩ :: after'
  moved : List.Forall₂ (Moved (byteLength d) (byteLength d')) after after'
  main_eq : c.main = front ++ d.flatMap blankFor ++ back
  main_eq' : c'.main = front ++ d'.flatMap blankFor ++ back
  byteLength_front : byteLength front = byteLength a

/-- A region bears on nothing outside: whatever region takes its place, the text is cut the
same around it. -/
theorem resized_of_cut {body body' : List Char} {c : Cut} {r : Region} (hh : IsHead a h)
    (hc : cut (a ++ braced h body ++ b) = .ok c) (hr : r ∈ c.regions)
    (hstart : r.start = byteLength a) (hstop : r.stop = byteLength (a ++ braced h body))
    (hbody : ∃ kind, find (braced h body') = .ok [⟨kind, 0, byteLength (braced h body')⟩]) :
    ∃ c', cut (a ++ braced h body' ++ b) = .ok c' ∧ ∃ before after after' front back,
      Resized a (braced h body) (braced h body') c c' r.kind before after after' front back := by
  obtain ⟨kind, hbody⟩ := hbody
  obtain ⟨hf, hmain⟩ := cut_eq_ok hc
  have hbraces := bracesTo_of_alone hh.alone hbody ⟨kind, List.mem_cons_self⟩
  obtain ⟨before, after, regions', after', heq, hf', heq', hmoved⟩ :=
    find_of_bodies hh hf hr hstart hstop hbraces
  have hc' : cut (a ++ braced h body' ++ b) =
      .ok ⟨overwrite regions' 0 (a ++ braced h body' ++ b), regions'⟩ := by
    unfold cut
    rw [hf']
  have horder := (placed_of_find hf).2
  have horder' := (placed_of_find hf').2
  have longer (x : List Char) : byteLength a < byteLength (a ++ braced h x) := by
    have := ('{' : Char).utf8Size_pos
    simp [braced]
    omega
  have hregion : r = ⟨r.kind, byteLength a, byteLength (a ++ braced h body)⟩ := by
    rw [← hstart, ← hstop]
  rw [hstart] at heq'
  rw [hregion] at heq
  rw [heq] at horder hmain
  rw [heq'] at horder' hc'
  refine ⟨_, hc', before, after, after', overwrite before 0 a,
    overwrite after (byteLength (a ++ braced h body)) b, heq, rfl, hmoved, ?_, ?_, ?_⟩
  · rw [hmain, overwrite_split horder (longer body)]
  · dsimp only
    rw [overwrite_split horder' (longer body')]
    congr 1
    refine overwrite_congr fun i hi => (isCovered_of_moved hmoved ?_).symm
    simp only [byteLength_append]
    omega
  · exact byteLength_overwrite _ _ _

end ServiceLang.Region
