import Menagerie.Graph.Declaration
import Menagerie.Narration

/-! # Sample graphs -/

namespace Menagerie.Sample

/-- A cat in a world. -/
def cat : Graph :=
  { animals := #[⟨"cat", "G1", "meow"⟩]
    instances := #[⟨"i1", ⟨0⟩⟩]
    worlds := #[⟨"w1", [⟨0⟩]⟩] }

/-- A cat that moves to a second world. -/
def movingCat : Graph :=
  { cat with
    worlds := cat.worlds.push ⟨"w2", []⟩
    transfers := #[⟨⟨0⟩, ⟨1⟩⟩] }

/-- A cat that two worlds list, the second one twice, and a cat without a name that none lists. -/
def sharedCat : Graph :=
  { cat with
    instances := cat.instances.push ⟨"", ⟨0⟩⟩
    worlds := cat.worlds.push ⟨"w2", [⟨0⟩, ⟨0⟩]⟩ }

/-- A cat, and another one of its name whose sound has no bytes. -/
def twinCats : Graph := { cat with animals := cat.animals.push ⟨"cat", "", "☃"⟩ }

/-- An eel without gene and sound, declared before the cat. -/
def muteEel : Graph := { cat with animals := #[⟨"eel", "", ""⟩] ++ cat.animals }

/-- Five animals of three species in three worlds; the dog Rex moves twice. -/
def zoo : Graph :=
  { animals := #[⟨"cat", "G1", "meow"⟩, ⟨"dog", "G22", "woof"⟩, ⟨"owl", "", "hoot"⟩]
    instances := #[⟨"tom", ⟨0⟩⟩, ⟨"rex", ⟨1⟩⟩, ⟨"fido", ⟨1⟩⟩, ⟨"hedwig", ⟨2⟩⟩, ⟨"kit", ⟨0⟩⟩]
    worlds := #[⟨"house", [⟨0⟩, ⟨1⟩]⟩, ⟨"park", [⟨2⟩, ⟨4⟩]⟩, ⟨"forest", [⟨3⟩]⟩]
    transfers := #[⟨⟨1⟩, ⟨1⟩⟩, ⟨⟨3⟩, ⟨0⟩⟩, ⟨⟨1⟩, ⟨2⟩⟩] }

/-- What the zoo narrates. -/
def zooNarrations : List Narration := [
  ⟨"house", "G1", "cat", "tom", "meow"⟩,
  ⟨"forest", "G22", "dog", "rex", "woof"⟩,
  ⟨"park", "G22", "dog", "fido", "woof"⟩,
  ⟨"house", "", "owl", "hedwig", "hoot"⟩,
  ⟨"park", "G1", "cat", "kit", "meow"⟩]

/-- Nothing declared. -/
def nothing : Graph := {}

end Menagerie.Sample
