import LuauTidy.Lowering.Filler
import LuauTidy.Proofs.Lowered

/-!
# Splicing

Sites that lie one behind the other in a text can be exchanged directly: what
is between them is kept, and each gives way to its lowered text.  A pass takes
a detour, by marks or by fillers, and here it is shown that the detour makes no
difference.  The sites are taken from left to right.  What was written so far
is put together from lowered texts and from kept parts of the source, so it
holds a filler only where the source does, and no filler is begun at its end.

* `Text.splice?` — the sites of a text exchanged directly;
* `Laid` — sites one behind the other, with what is between them;
* `Laid.splice`, `Laid.fill`, `Laid.hold` — the three ways agree.
-/

namespace LuauTidy

/-- The text from an offset on, with every site exchanged for a text. -/
def Text.splice? (source : Text) (offset : Nat) : List (Site × Text) → Option Text
  | [] => source.after? offset
  | (site, graft) :: rest => do
    let kept ← source.slice? offset site.node.start
    let spliced ← source.splice? site.node.stop rest
    return kept ++ graft ++ spliced

/-- Sites that lie one behind the other in a text behind another text, with
their lowered texts and the text that splicing gives. -/
inductive Laid (t : SyntaxTree) : (before text : Text) → List Site → (grafts : List Text) →
    (spliced : Text) → Prop
  | nil (before text : Text) : Laid t before text [] [] text
  | cons {before kept part rest graft spliced : Text} {site : Site} {sites : List Site}
      {grafts : List Text}
      (start_eq : site.node.start = (before ++ kept).byteLength)
      (stop_eq : site.node.stop = (before ++ kept ++ part).byteLength)
      (nonempty : part ≠ [])
      (closed : Text.Sealed (before ++ kept))
      (lowered : t.loweredSite site = .ok graft)
      (grafted : Grafts t.source part graft)
      (altered : Alters part graft)
      (tail : Laid t (before ++ kept ++ part) rest sites grafts spliced) :
      Laid t before (kept ++ (part ++ rest)) (site :: sites) (graft :: grafts)
        (kept ++ graft ++ spliced)

namespace Laid

variable {t : SyntaxTree} {before text a b spliced : Text} {sites : List Site}
  {grafts fillers : List Text}

/-- Text without sites may stand before. -/
theorem behind (h : Laid t (before ++ a) b sites grafts spliced) :
    Laid t before (a ++ b) sites grafts (a ++ spliced) := by
  cases h with
  | nil => exact .nil _ _
  | @cons _ kept part rest graft spliced site _ _ start_eq stop_eq nonempty closed lowered grafted
      altered tail =>
      have hstart : site.node.start = (before ++ (a ++ kept)).byteLength := by simp [start_eq]
      have h := cons hstart (by simp [stop_eq]) nonempty (by simpa using closed) lowered grafted
        altered (by simpa using tail)
      simpa using h

/-- Sites behind sites. -/
theorem append {sites' : List Site} {grafts' : List Text} {spliced' : Text}
    (h : Laid t before a sites grafts spliced)
    (h' : Laid t (before ++ a) b sites' grafts' spliced') :
    Laid t before (a ++ b) (sites ++ sites') (grafts ++ grafts') (spliced ++ spliced') := by
  induction h with
  | nil => exact h'.behind
  | cons start_eq stop_eq nonempty closed lowered grafted altered _ ih =>
      have h := cons start_eq stop_eq nonempty closed lowered grafted altered
        (ih (by simpa using h'))
      simpa using h

theorem mapM_eq (h : Laid t before text sites grafts spliced) :
    sites.mapM t.loweredSite = .ok grafts := by
  induction h with
  | nil => rfl
  | cons _ _ _ _ lowered _ _ _ ih =>
      simp [List.mapM_cons, lowered, ih, bind, Except.bind, pure, Except.pure]

/-- No site starts before the text. -/
theorem start_le (h : Laid t before text sites grafts spliced) :
    ∀ site ∈ sites, before.byteLength ≤ site.node.start := by
  induction h with
  | nil => simp
  | @cons before kept part _ _ _ _ _ _ start_eq stop_eq _ _ _ _ _ _ ih =>
      simp only [List.mem_cons, forall_eq_or_imp]
      refine ⟨by simp [start_eq], fun site hsite => ?_⟩
      have := ih site hsite
      simp only [Text.byteLength_append] at this
      omega

/-- The sites are disjoint and in order. -/
theorem pairwise (h : Laid t before text sites grafts spliced) :
    sites.Pairwise fun first second => first.node.stop ≤ second.node.start := by
  induction h with
  | nil => exact .nil
  | cons start_eq stop_eq _ _ _ _ _ tail ih =>
      refine .cons (fun site hsite => ?_) ih
      rw [stop_eq]
      exact tail.start_le site hsite

/-- Direct splicing gives the text. -/
theorem splice (h : Laid t before text sites grafts spliced) :
    Text.splice? (before ++ text) before.byteLength (sites.zip grafts) = some spliced := by
  induction h with
  | nil => simp [Text.splice?]
  | @cons before kept part rest _ _ site _ _ start_eq stop_eq _ _ _ _ _ _ ih =>
      have hkept : Text.slice? (before ++ (kept ++ (part ++ rest))) before.byteLength
          site.node.start = some kept := by
        rw [start_eq, Text.byteLength_append]
        exact Text.slice?_append _ _ _
      rw [List.append_assoc, List.append_assoc] at ih
      rw [List.zip_cons_cons, Text.splice?, hkept, stop_eq, ih]
      rfl

/-- Splicing by fillers gives the text.  `written` stands for what lies before
the text once the sites there are exchanged. -/
theorem fill (h : Laid t before text sites grafts spliced) (hsource : t.source = before ++ text)
    {used : List Text} (hlength : fillers.length = sites.length)
    (hfree : Filler.areFree t.source used (sites.zip fillers)) :
    ∃ filled,
      (∀ passed : Text, passed.byteLength = before.byteLength →
        Text.fillSites (passed ++ text) (sites.zip fillers) = some (passed ++ filled)) ∧
      ∀ written, Faithful t.source before written →
        t.substitute (written ++ filled) (sites.zip fillers) = .ok (written ++ spliced) := by
  induction h generalizing used fillers with
  | nil before text =>
      exact ⟨text, fun _ _ => by simp [Text.fillSites], fun _ _ => by simp [SyntaxTree.substitute]⟩
  | @cons before kept part rest graft spliced site sites grafts start_eq stop_eq nonempty closed
      lowered grafted altered tail ih =>
      obtain ⟨filler, fillers, rfl⟩ : ∃ filler later, fillers = filler :: later := by
        cases fillers with
        | nil => simp at hlength
        | cons filler later => exact ⟨filler, later, rfl⟩
      simp only [List.zip_cons_cons, Filler.areFree, Filler.isFree, Bool.and_eq_true,
        Bool.not_eq_true'] at hfree
      obtain ⟨⟨hshaped, hfresh, -⟩, hothers⟩ := hfree
      have hsite : site.length = part.byteLength := by
        simp only [Site.length, start_eq, stop_eq, Text.byteLength_append]
        omega
      have hpos : 0 < part.byteLength := by
        have := mt Text.byteLength_eq_zero.mp nonempty
        omega
      obtain ⟨hshape, hfiller⟩ := Filler.shape_of_isShaped hshaped (by omega)
      have hbytes : filler.byteLength = part.byteLength := by
        rw [hshape.byteLength_eq, hfiller, hsite]
      obtain ⟨filled, hfill, hsubstitute⟩ :=
        ih (by simp [hsource]) (by simpa using hlength) hothers
      refine ⟨kept ++ (filler ++ filled), fun passed hpassed => ?_, fun written hwritten => ?_⟩
      · have hstart : site.node.start = (passed ++ kept).byteLength := by
          simp [start_eq, hpassed]
        have hstop : site.node.stop = (passed ++ kept).byteLength + part.byteLength := by
          simp [stop_eq, hpassed, Nat.add_assoc]
        have hreplace : Text.replaceRange? (passed ++ (kept ++ (part ++ rest))) site.node.start
            site.node.stop filler = some (passed ++ (kept ++ (filler ++ rest))) := by
          rw [hstart, hstop]
          simpa using Text.replaceRange?_append (passed ++ kept) part rest filler
        have hlater := hfill (passed ++ kept ++ filler) (by simp [hpassed, hbytes])
        simp only [List.append_assoc] at hlater
        simp [List.zip_cons_cons, Text.fillSites, hreplace, hlater]
      · have hprefix : before ++ kept <+: t.source := ⟨part ++ rest, by simp [hsource]⟩
        have hfound : replaceFirst filler graft (written ++ kept ++ (filler ++ filled)) =
            written ++ kept ++ (graft ++ filled) :=
          Filler.replaceFirst_drawn hshape (hwritten.drawn kept hprefix)
            (hwritten.sealed kept closed) hfresh
        have hlater := hsubstitute (written ++ kept ++ graft)
          (hwritten.graft hsource closed grafted)
        simp only [List.append_assoc] at hfound hlater
        simp only [List.zip_cons_cons, SyntaxTree.substitute, lowered, bind, Except.bind, hfound,
          hlater, List.append_assoc]

/-- Splicing by marks gives the text. -/
theorem hold (h : Laid t before text sites grafts spliced) (number : Nat) :
    ∃ held,
      (∀ passed : Draft, (passed.map Slot.size).sum = before.byteLength →
        Draft.holdSites (passed ++ Draft.ofText text) number sites = .ok (passed ++ held)) ∧
      ∀ written : Draft, (∀ part, number ≤ part → Slot.mark part ∉ written) →
        t.releaseSites (written ++ held) number sites = .ok (written ++ Draft.ofText spliced) := by
  induction h generalizing number with
  | nil before text =>
      exact ⟨Draft.ofText text, fun _ _ => by simp [Draft.holdSites],
        fun _ _ => by simp [SyntaxTree.releaseSites]⟩
  | @cons before kept part rest graft spliced site sites grafts start_eq stop_eq nonempty closed
      lowered grafted altered tail ih =>
      obtain ⟨held, hhold, hrelease⟩ := ih (number + 1)
      have hsite : site.length = part.byteLength := by
        simp only [Site.length, start_eq, stop_eq, Text.byteLength_append]
        omega
      have hmarks : Draft.marks number part.byteLength ≠ [] := by
        have := mt Text.byteLength_eq_zero.mp nonempty
        simpa [Draft.marks] using this
      refine ⟨Draft.ofText kept ++ (Draft.marks number part.byteLength ++ held),
        fun passed hpassed => ?_, fun written hwritten => ?_⟩
      · have hstart : ((passed ++ Draft.ofText kept).map Slot.size).sum = site.node.start := by
          simp [start_eq, hpassed, Draft.size_ofText]
        have hstop : site.node.stop = site.node.start + part.byteLength := by
          simp only [start_eq, stop_eq, Text.byteLength_append]
        have hheld : Draft.hold? (passed ++ Draft.ofText kept ++
            (Draft.ofText part ++ Draft.ofText rest)) number site.node.start site.node.stop =
              some (passed ++ Draft.ofText kept ++
                (Draft.marks number part.byteLength ++ Draft.ofText rest)) :=
          Draft.hold?_append hstart hstop
        have hlater := hhold (passed ++ Draft.ofText kept ++ Draft.marks number part.byteLength) (by
          simp [hpassed, Draft.size_ofText, Draft.marks, Slot.size])
        simp only [List.append_assoc] at hheld hlater
        simp [Draft.holdSites, hheld, hlater]
      · have hfresh : Slot.mark number ∉ written ++ Draft.ofText kept := by
          simp [hwritten number (Nat.le_refl _), Draft.mark_notMem_ofText]
        have hfound : replaceFirst (Draft.marks number part.byteLength) (Draft.ofText graft)
            (written ++ Draft.ofText kept ++ (Draft.marks number part.byteLength ++ held)) =
              written ++ Draft.ofText kept ++ (Draft.ofText graft ++ held) := by
          refine replaceFirst_append hmarks ?_
          rintro u v heq hv hprefix
          obtain ⟨slot, v, rfl⟩ := List.exists_cons_of_ne_nil hv
          obtain ⟨length, hlength⟩ : ∃ length, part.byteLength = length + 1 :=
            ⟨part.byteLength - 1, by
              have := mt Text.byteLength_eq_zero.mp nonempty
              omega⟩
          rw [hlength, Draft.marks, List.replicate_succ] at hprefix
          simp only [List.cons_append, List.cons_prefix_cons] at hprefix
          exact hfresh (by rw [heq, hprefix.1]; simp)
        have hlater := hrelease (written ++ Draft.ofText kept ++ Draft.ofText graft) (by
          intro other hother
          simp [hwritten other (by omega), Draft.mark_notMem_ofText])
        simp only [List.append_assoc] at hfound hlater
        simp [SyntaxTree.releaseSites, lowered, bind, Except.bind, Draft.release, hsite, hfound,
          hlater]

end Laid

end LuauTidy
