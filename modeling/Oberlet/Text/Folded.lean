/-!
# Folded text
-/

namespace Oberlet.Text

/-- Every `step`-th character from one to another is folded by the same distance, the first to
`target`. -/
structure FoldRange where
  first : Nat
  last : Nat
  step : Nat
  target : Nat
deriving DecidableEq, Repr

def foldRanges : List FoldRange :=
  [⟨192,214,1,224⟩,⟨216,222,1,248⟩,⟨256,302,2,257⟩,⟨306,310,2,307⟩,⟨313,327,2,314⟩,⟨330,374,2,331⟩,
   ⟨377,381,2,378⟩,⟨386,388,2,387⟩,⟨393,394,1,598⟩,⟨416,420,2,417⟩,⟨433,434,1,650⟩,⟨435,437,2,436⟩,
   ⟨459,475,2,460⟩,⟨478,494,2,479⟩,⟨498,500,2,499⟩,⟨504,542,2,505⟩,⟨546,562,2,547⟩,⟨582,590,2,583⟩,
   ⟨880,882,2,881⟩,⟨904,906,1,941⟩,⟨910,911,1,973⟩,⟨913,929,1,945⟩,⟨931,939,1,963⟩,⟨984,1006,2,985⟩,
   ⟨1021,1023,1,891⟩,⟨1024,1039,1,1104⟩,⟨1040,1071,1,1072⟩,⟨1120,1152,2,1121⟩,⟨1162,1214,2,1163⟩,
   ⟨1217,1229,2,1218⟩,⟨1232,1326,2,1233⟩,⟨1329,1366,1,1377⟩,⟨4256,4293,1,11520⟩,⟨5112,5117,1,5104⟩,
   ⟨7299,7300,1,1089⟩,⟨7312,7354,1,4304⟩,⟨7357,7359,1,4349⟩,⟨7680,7828,2,7681⟩,⟨7840,7934,2,7841⟩,
   ⟨7944,7951,1,7936⟩,⟨7960,7965,1,7952⟩,⟨7976,7983,1,7968⟩,⟨7992,7999,1,7984⟩,⟨8008,8013,1,8000⟩,
   ⟨8025,8031,2,8017⟩,⟨8040,8047,1,8032⟩,⟨8120,8121,1,8112⟩,⟨8122,8123,1,8048⟩,⟨8136,8139,1,8050⟩,
   ⟨8152,8153,1,8144⟩,⟨8154,8155,1,8054⟩,⟨8168,8169,1,8160⟩,⟨8170,8171,1,8058⟩,⟨8184,8185,1,8056⟩,
   ⟨8186,8187,1,8060⟩,⟨8544,8559,1,8560⟩,⟨9398,9423,1,9424⟩,⟨11264,11311,1,11312⟩,
   ⟨11367,11371,2,11368⟩,⟨11390,11391,1,575⟩,⟨11392,11490,2,11393⟩,⟨11499,11501,2,11500⟩,
   ⟨42560,42604,2,42561⟩,⟨42624,42650,2,42625⟩,⟨42786,42798,2,42787⟩,⟨42802,42862,2,42803⟩,
   ⟨42873,42875,2,42874⟩,⟨42878,42886,2,42879⟩,⟨42896,42898,2,42897⟩,⟨42902,42920,2,42903⟩,
   ⟨42932,42946,2,42933⟩,⟨42951,42953,2,42952⟩,⟨42966,42968,2,42967⟩,⟨43888,43967,1,5024⟩,
   ⟨65313,65338,1,65345⟩,⟨66560,66599,1,66600⟩,⟨66736,66771,1,66776⟩,⟨66928,66964,2,66967⟩,
   ⟨66929,66937,2,66968⟩,⟨66941,66953,2,66980⟩,⟨66957,66961,2,66996⟩,⟨68736,68786,1,68800⟩,
   ⟨71840,71871,1,71872⟩,⟨93760,93791,1,93792⟩,⟨125184,125217,1,125218⟩]

/-- The other characters outside ASCII that are folded to one character. -/
def foldPairs : List (Nat × Nat) :=
  [(181,956),(376,255),(383,115),(385,595),(390,596),(391,392),(395,396),(398,477),(399,601),
   (400,603),(401,402),(403,608),(404,611),(406,617),(407,616),(408,409),(412,623),(413,626),
   (415,629),(422,640),(423,424),(425,643),(428,429),(430,648),(431,432),(439,658),(440,441),
   (444,445),(452,454),(453,454),(455,457),(456,457),(458,460),(497,499),(502,405),(503,447),
   (544,414),(570,11365),(571,572),(573,410),(574,11366),(577,578),(579,384),(580,649),(581,652),
   (837,953),(886,887),(895,1011),(902,940),(908,972),(962,963),(975,983),(976,946),(977,952),
   (981,966),(982,960),(1008,954),(1009,961),(1012,952),(1013,949),(1015,1016),(1017,1010),
   (1018,1019),(1216,1231),(4295,11559),(4301,11565),(7296,1074),(7297,1076),(7298,1086),
   (7301,1090),(7302,1098),(7303,1123),(7304,42571),(7835,7777),(8126,953),(8172,8165),(8486,969),
   (8490,107),(8491,229),(8498,8526),(8579,8580),(11360,11361),(11362,619),(11363,7549),(11364,637),
   (11373,593),(11374,625),(11375,592),(11376,594),(11378,11379),(11381,11382),(11506,11507),
   (42877,7545),(42891,42892),(42893,613),(42922,614),(42923,604),(42924,609),(42925,620),
   (42926,618),(42928,670),(42929,647),(42930,669),(42931,43859),(42948,42900),(42949,642),
   (42950,7566),(42960,42961),(42997,42998),(66965,67004)]

/-- The ranges of letters with an iota below, which is folded to a letter of its own. -/
def iotaRanges : List FoldRange :=
  [⟨8064,8071,1,7936⟩,⟨8072,8079,1,7936⟩,⟨8080,8087,1,7968⟩,⟨8088,8095,1,7968⟩,⟨8096,8103,1,8032⟩,
   ⟨8104,8111,1,8032⟩]

/-- The other characters that are folded to several. -/
def manyfold : List (Nat × List Nat) :=
  [(223,[115,115]),(304,[105,775]),(329,[700,110]),(496,[106,780]),(912,[953,776,769]),
   (944,[965,776,769]),(1415,[1381,1410]),(7830,[104,817]),(7831,[116,776]),(7832,[119,778]),
   (7833,[121,778]),(7834,[97,702]),(7838,[115,115]),(8016,[965,787]),(8018,[965,787,768]),
   (8020,[965,787,769]),(8022,[965,787,834]),(8114,[8048,953]),(8115,[945,953]),(8116,[940,953]),
   (8118,[945,834]),(8119,[945,834,953]),(8124,[945,953]),(8130,[8052,953]),(8131,[951,953]),
   (8132,[942,953]),(8134,[951,834]),(8135,[951,834,953]),(8140,[951,953]),(8146,[953,776,768]),
   (8147,[953,776,769]),(8150,[953,834]),(8151,[953,776,834]),(8162,[965,776,768]),
   (8163,[965,776,769]),(8164,[961,787]),(8166,[965,834]),(8167,[965,776,834]),(8178,[8060,953]),
   (8179,[969,953]),(8180,[974,953]),(8182,[969,834]),(8183,[969,834,953]),(8188,[969,953]),
   (64256,[102,102]),(64257,[102,105]),(64258,[102,108]),(64259,[102,102,105]),
   (64260,[102,102,108]),(64261,[115,116]),(64262,[115,116]),(64275,[1396,1398]),
   (64276,[1396,1381]),(64277,[1396,1387]),(64278,[1406,1398]),(64279,[1396,1389])]

def FoldRange.fold? (range : FoldRange) (code : Nat) : Option Nat :=
  if range.first ≤ code && code ≤ range.last && (code - range.first) % range.step == 0 then
    some (range.target + (code - range.first))
  else none

/-- The codes that a code outside ASCII is folded to, if it is folded. -/
def foldedCode? (code : Nat) : Option (List Nat) :=
  List.lookup code manyfold <|> (iotaRanges.findSome? (·.fold? code)).map ([·, 0x3B9]) <|>
    (List.lookup code foldPairs).map ([·]) <|> (foldRanges.findSome? (·.fold? code)).map ([·])

/-- A character without its case. Most letters are folded to one character, some to several. -/
def foldedChar (c : Char) : List Char :=
  if c.toNat < 0x80 then [c.toLower]
  else (foldedCode? c.toNat).elim [c] (·.map Char.ofNat)

/-- Texts that differ only in the case of letters are the same when they are folded. -/
def folded (cs : List Char) : List Char := cs.flatMap foldedChar

end Oberlet.Text
