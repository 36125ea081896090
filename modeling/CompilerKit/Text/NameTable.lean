/-!
# Names of characters

The names of the characters of some scripts, and of the more common signs. Names that differ in
their last words stand in one row.
-/

namespace CompilerKit.Text

/-- Characters with consecutive code points. Their names start with one of the leads, which take
turns, and end with one of the names, which have commas between them. -/
structure NameRow where
  first : Nat
  leads : List String
  names : String

namespace NameRow

def items (row : NameRow) : List (List Char) :=
  (row.names.splitOn ",").map fun item => item.toList.dropWhile Char.isWhitespace

def code? (row : NameRow) (name : List Char) : Option Nat :=
  row.leads.zipIdx.findSome? fun (lead, k) => do
    guard (lead.toList.isPrefixOf name)
    let i ← row.items.idxOf? (name.drop lead.length)
    pure (row.first + i * row.leads.length + k)

end NameRow

/-- Every character outside of these rows has no name here, if none follows from its code point. -/
def nameRows : List NameRow := [
  -- the letters and signs of the western scripts
  ⟨0x0000, [""], "
    NULL, START OF HEADING, START OF TEXT, END OF TEXT, END OF TRANSMISSION, ENQUIRY, ACKNOWLEDGE,
    ALERT, BACKSPACE, CHARACTER TABULATION, LINE FEED, LINE TABULATION, FORM FEED,
    CARRIAGE RETURN"⟩,
  ⟨0x0020, [""], "
    SPACE, EXCLAMATION MARK, QUOTATION MARK, NUMBER SIGN, DOLLAR SIGN, PERCENT SIGN, AMPERSAND,
    APOSTROPHE, LEFT PARENTHESIS, RIGHT PARENTHESIS, ASTERISK, PLUS SIGN, COMMA, HYPHEN-MINUS,
    FULL STOP, SOLIDUS"⟩,
  ⟨0x0030, ["DIGIT "], "ZERO, ONE, TWO, THREE, FOUR, FIVE, SIX, SEVEN, EIGHT, NINE"⟩,
  ⟨0x003A, [""], "
    COLON, SEMICOLON, LESS-THAN SIGN, EQUALS SIGN, GREATER-THAN SIGN, QUESTION MARK,
    COMMERCIAL AT"⟩,
  ⟨0x0041, ["LATIN CAPITAL LETTER "], "
    A, B, C, D, E, F, G, H, I, J, K, L, M, N, O, P, Q, R, S, T, U, V, W, X, Y, Z"⟩,
  ⟨0x005B, [""], "
    LEFT SQUARE BRACKET, REVERSE SOLIDUS, RIGHT SQUARE BRACKET, CIRCUMFLEX ACCENT, LOW LINE,
    GRAVE ACCENT"⟩,
  ⟨0x0061, ["LATIN SMALL LETTER "], "
    A, B, C, D, E, F, G, H, I, J, K, L, M, N, O, P, Q, R, S, T, U, V, W, X, Y, Z"⟩,
  ⟨0x007B, [""], "LEFT CURLY BRACKET, VERTICAL LINE, RIGHT CURLY BRACKET, TILDE"⟩,
  ⟨0x00A0, [""], "
    NO-BREAK SPACE, INVERTED EXCLAMATION MARK, CENT SIGN, POUND SIGN, CURRENCY SIGN, YEN SIGN,
    BROKEN BAR, SECTION SIGN, DIAERESIS, COPYRIGHT SIGN, FEMININE ORDINAL INDICATOR,
    LEFT-POINTING DOUBLE ANGLE QUOTATION MARK, NOT SIGN, SOFT HYPHEN, REGISTERED SIGN, MACRON,
    DEGREE SIGN, PLUS-MINUS SIGN, SUPERSCRIPT TWO, SUPERSCRIPT THREE, ACUTE ACCENT, MICRO SIGN,
    PILCROW SIGN, MIDDLE DOT, CEDILLA, SUPERSCRIPT ONE, MASCULINE ORDINAL INDICATOR,
    RIGHT-POINTING DOUBLE ANGLE QUOTATION MARK, VULGAR FRACTION ONE QUARTER,
    VULGAR FRACTION ONE HALF, VULGAR FRACTION THREE QUARTERS, INVERTED QUESTION MARK"⟩,
  ⟨0x00C0, ["LATIN CAPITAL LETTER "], "
    A WITH GRAVE, A WITH ACUTE, A WITH CIRCUMFLEX, A WITH TILDE, A WITH DIAERESIS,
    A WITH RING ABOVE, AE, C WITH CEDILLA, E WITH GRAVE, E WITH ACUTE, E WITH CIRCUMFLEX,
    E WITH DIAERESIS, I WITH GRAVE, I WITH ACUTE, I WITH CIRCUMFLEX, I WITH DIAERESIS, ETH,
    N WITH TILDE, O WITH GRAVE, O WITH ACUTE, O WITH CIRCUMFLEX, O WITH TILDE, O WITH DIAERESIS"⟩,
  ⟨0x00D7, ["MULTIPLICATION "], "SIGN"⟩,
  ⟨0x00D8, ["LATIN CAPITAL LETTER "], "
    O WITH STROKE, U WITH GRAVE, U WITH ACUTE, U WITH CIRCUMFLEX, U WITH DIAERESIS, Y WITH ACUTE,
    THORN"⟩,
  ⟨0x00DF, ["LATIN SMALL LETTER "], "
    SHARP S, A WITH GRAVE, A WITH ACUTE, A WITH CIRCUMFLEX, A WITH TILDE, A WITH DIAERESIS,
    A WITH RING ABOVE, AE, C WITH CEDILLA, E WITH GRAVE, E WITH ACUTE, E WITH CIRCUMFLEX,
    E WITH DIAERESIS, I WITH GRAVE, I WITH ACUTE, I WITH CIRCUMFLEX, I WITH DIAERESIS, ETH,
    N WITH TILDE, O WITH GRAVE, O WITH ACUTE, O WITH CIRCUMFLEX, O WITH TILDE, O WITH DIAERESIS"⟩,
  ⟨0x00F7, ["DIVISION "], "SIGN"⟩,
  ⟨0x00F8, ["LATIN SMALL LETTER "], "
    O WITH STROKE, U WITH GRAVE, U WITH ACUTE, U WITH CIRCUMFLEX, U WITH DIAERESIS, Y WITH ACUTE,
    THORN, Y WITH DIAERESIS"⟩,
  ⟨0x0100, ["LATIN CAPITAL LETTER ", "LATIN SMALL LETTER "], "
    A WITH MACRON, A WITH BREVE, A WITH OGONEK, C WITH ACUTE, C WITH CIRCUMFLEX, C WITH DOT ABOVE,
    C WITH CARON, D WITH CARON, D WITH STROKE, E WITH MACRON, E WITH BREVE, E WITH DOT ABOVE,
    E WITH OGONEK, E WITH CARON, G WITH CIRCUMFLEX, G WITH BREVE, G WITH DOT ABOVE, G WITH CEDILLA,
    H WITH CIRCUMFLEX, H WITH STROKE, I WITH TILDE, I WITH MACRON, I WITH BREVE, I WITH OGONEK"⟩,
  ⟨0x0130, ["LATIN CAPITAL LETTER I WITH DOT "], "ABOVE"⟩,
  ⟨0x0131, ["LATIN SMALL LETTER DOTLESS "], "I"⟩,
  ⟨0x0132, ["LATIN CAPITAL LIGATURE "], "IJ"⟩,
  ⟨0x0133, ["LATIN SMALL LIGATURE "], "IJ"⟩,
  ⟨0x0134, ["LATIN CAPITAL LETTER ", "LATIN SMALL LETTER "], "J WITH CIRCUMFLEX, K WITH CEDILLA"⟩,
  ⟨0x0138, ["LATIN SMALL LETTER "], "KRA"⟩,
  ⟨0x0139, ["LATIN CAPITAL LETTER ", "LATIN SMALL LETTER "], "
    L WITH ACUTE, L WITH CEDILLA, L WITH CARON, L WITH MIDDLE DOT, L WITH STROKE, N WITH ACUTE,
    N WITH CEDILLA, N WITH CARON"⟩,
  ⟨0x0149, ["LATIN SMALL LETTER N PRECEDED BY "], "APOSTROPHE"⟩,
  ⟨0x014A, ["LATIN CAPITAL LETTER ", "LATIN SMALL LETTER "], "
    ENG, O WITH MACRON, O WITH BREVE, O WITH DOUBLE ACUTE"⟩,
  ⟨0x0152, ["LATIN CAPITAL LIGATURE "], "OE"⟩,
  ⟨0x0153, ["LATIN SMALL LIGATURE "], "OE"⟩,
  ⟨0x0154, ["LATIN CAPITAL LETTER ", "LATIN SMALL LETTER "], "
    R WITH ACUTE, R WITH CEDILLA, R WITH CARON, S WITH ACUTE, S WITH CIRCUMFLEX, S WITH CEDILLA,
    S WITH CARON, T WITH CEDILLA, T WITH CARON, T WITH STROKE, U WITH TILDE, U WITH MACRON,
    U WITH BREVE, U WITH RING ABOVE, U WITH DOUBLE ACUTE, U WITH OGONEK, W WITH CIRCUMFLEX,
    Y WITH CIRCUMFLEX"⟩,
  ⟨0x0178, ["LATIN CAPITAL LETTER Y WITH "], "DIAERESIS"⟩,
  ⟨0x0179, ["LATIN CAPITAL LETTER ", "LATIN SMALL LETTER "], "
    Z WITH ACUTE, Z WITH DOT ABOVE, Z WITH CARON"⟩,
  ⟨0x017F, ["LATIN SMALL LETTER LONG "], "S"⟩,
  -- other alphabets and syllabaries
  ⟨0x0370, ["GREEK "], "
    CAPITAL LETTER HETA, SMALL LETTER HETA, CAPITAL LETTER ARCHAIC SAMPI,
    SMALL LETTER ARCHAIC SAMPI, NUMERAL SIGN, LOWER NUMERAL SIGN, CAPITAL LETTER PAMPHYLIAN DIGAMMA,
    SMALL LETTER PAMPHYLIAN DIGAMMA"⟩,
  ⟨0x037A, ["GREEK "], "
    YPOGEGRAMMENI, SMALL REVERSED LUNATE SIGMA SYMBOL, SMALL DOTTED LUNATE SIGMA SYMBOL,
    SMALL REVERSED DOTTED LUNATE SIGMA SYMBOL, QUESTION MARK, CAPITAL LETTER YOT"⟩,
  ⟨0x0384, ["GREEK "], "TONOS, DIALYTIKA TONOS, CAPITAL LETTER ALPHA WITH TONOS, ANO TELEIA"⟩,
  ⟨0x0388, ["GREEK CAPITAL LETTER "], "EPSILON WITH TONOS, ETA WITH TONOS, IOTA WITH TONOS"⟩,
  ⟨0x038C, ["GREEK CAPITAL LETTER OMICRON WITH "], "TONOS"⟩,
  ⟨0x038E, ["GREEK "], "
    CAPITAL LETTER UPSILON WITH TONOS, CAPITAL LETTER OMEGA WITH TONOS,
    SMALL LETTER IOTA WITH DIALYTIKA AND TONOS"⟩,
  ⟨0x0391, ["GREEK CAPITAL LETTER "], "
    ALPHA, BETA, GAMMA, DELTA, EPSILON, ZETA, ETA, THETA, IOTA, KAPPA, LAMDA, MU, NU, XI, OMICRON,
    PI, RHO"⟩,
  ⟨0x03A3, ["GREEK CAPITAL LETTER "], "
    SIGMA, TAU, UPSILON, PHI, CHI, PSI, OMEGA, IOTA WITH DIALYTIKA, UPSILON WITH DIALYTIKA"⟩,
  ⟨0x03AC, ["GREEK SMALL LETTER "], "
    ALPHA WITH TONOS, EPSILON WITH TONOS, ETA WITH TONOS, IOTA WITH TONOS,
    UPSILON WITH DIALYTIKA AND TONOS, ALPHA, BETA, GAMMA, DELTA, EPSILON, ZETA, ETA, THETA, IOTA,
    KAPPA, LAMDA, MU, NU, XI, OMICRON, PI, RHO, FINAL SIGMA, SIGMA, TAU, UPSILON, PHI, CHI, PSI,
    OMEGA, IOTA WITH DIALYTIKA, UPSILON WITH DIALYTIKA, OMICRON WITH TONOS, UPSILON WITH TONOS,
    OMEGA WITH TONOS"⟩,
  ⟨0x03CF, ["GREEK "], "
    CAPITAL KAI SYMBOL, BETA SYMBOL, THETA SYMBOL, UPSILON WITH HOOK SYMBOL,
    UPSILON WITH ACUTE AND HOOK SYMBOL, UPSILON WITH DIAERESIS AND HOOK SYMBOL, PHI SYMBOL,
    PI SYMBOL, KAI SYMBOL, LETTER ARCHAIC KOPPA, SMALL LETTER ARCHAIC KOPPA, LETTER STIGMA,
    SMALL LETTER STIGMA, LETTER DIGAMMA, SMALL LETTER DIGAMMA, LETTER KOPPA, SMALL LETTER KOPPA,
    LETTER SAMPI, SMALL LETTER SAMPI"⟩,
  ⟨0x03E2, ["COPTIC "], "
    CAPITAL LETTER SHEI, SMALL LETTER SHEI, CAPITAL LETTER FEI, SMALL LETTER FEI,
    CAPITAL LETTER KHEI, SMALL LETTER KHEI, CAPITAL LETTER HORI, SMALL LETTER HORI,
    CAPITAL LETTER GANGIA, SMALL LETTER GANGIA, CAPITAL LETTER SHIMA, SMALL LETTER SHIMA,
    CAPITAL LETTER DEI, SMALL LETTER DEI"⟩,
  ⟨0x03F0, ["GREEK "], "
    KAPPA SYMBOL, RHO SYMBOL, LUNATE SIGMA SYMBOL, LETTER YOT, CAPITAL THETA SYMBOL,
    LUNATE EPSILON SYMBOL, REVERSED LUNATE EPSILON SYMBOL, CAPITAL LETTER SHO, SMALL LETTER SHO,
    CAPITAL LUNATE SIGMA SYMBOL, CAPITAL LETTER SAN, SMALL LETTER SAN, RHO WITH STROKE SYMBOL,
    CAPITAL REVERSED LUNATE SIGMA SYMBOL, CAPITAL DOTTED LUNATE SIGMA SYMBOL,
    CAPITAL REVERSED DOTTED LUNATE SIGMA SYMBOL"⟩,
  ⟨0x0400, ["CYRILLIC CAPITAL LETTER "], "
    IE WITH GRAVE, IO, DJE, GJE, UKRAINIAN IE, DZE, BYELORUSSIAN-UKRAINIAN I, YI, JE, LJE, NJE,
    TSHE, KJE, I WITH GRAVE, SHORT U, DZHE, A, BE, VE, GHE, DE, IE, ZHE, ZE, I, SHORT I, KA, EL, EM,
    EN, O, PE, ER, ES, TE, U, EF, HA, TSE, CHE, SHA, SHCHA, HARD SIGN, YERU, SOFT SIGN, E, YU, YA"⟩,
  ⟨0x0430, ["CYRILLIC SMALL LETTER "], "
    A, BE, VE, GHE, DE, IE, ZHE, ZE, I, SHORT I, KA, EL, EM, EN, O, PE, ER, ES, TE, U, EF, HA, TSE,
    CHE, SHA, SHCHA, HARD SIGN, YERU, SOFT SIGN, E, YU, YA, IE WITH GRAVE, IO, DJE, GJE,
    UKRAINIAN IE, DZE, BYELORUSSIAN-UKRAINIAN I, YI, JE, LJE, NJE, TSHE, KJE, I WITH GRAVE, SHORT U,
    DZHE"⟩,
  ⟨0x05D0, ["HEBREW LETTER "], "
    ALEF, BET, GIMEL, DALET, HE, VAV, ZAYIN, HET, TET, YOD, FINAL KAF, KAF, LAMED, FINAL MEM, MEM,
    FINAL NUN, NUN, SAMEKH, AYIN, FINAL PE, PE, FINAL TSADI, TSADI, QOF, RESH, SHIN, TAV"⟩,
  ⟨0x0621, ["ARABIC LETTER "], "
    HAMZA, ALEF WITH MADDA ABOVE, ALEF WITH HAMZA ABOVE, WAW WITH HAMZA ABOVE,
    ALEF WITH HAMZA BELOW, YEH WITH HAMZA ABOVE, ALEF, BEH, TEH MARBUTA, TEH, THEH, JEEM, HAH, KHAH,
    DAL, THAL, REH, ZAIN, SEEN, SHEEN, SAD, DAD, TAH, ZAH, AIN, GHAIN, KEHEH WITH TWO DOTS ABOVE,
    KEHEH WITH THREE DOTS BELOW, FARSI YEH WITH INVERTED V, FARSI YEH WITH TWO DOTS ABOVE,
    FARSI YEH WITH THREE DOTS ABOVE"⟩,
  ⟨0x0640, ["ARABIC "], "TATWEEL"⟩,
  ⟨0x0641, ["ARABIC LETTER "], "FEH, QAF, KAF, LAM, MEEM, NOON, HEH, WAW, ALEF MAKSURA, YEH"⟩,
  ⟨0x3041, ["HIRAGANA LETTER "], "
    SMALL A, A, SMALL I, I, SMALL U, U, SMALL E, E, SMALL O, O, KA, GA, KI, GI, KU, GU, KE, GE, KO,
    GO, SA, ZA, SI, ZI, SU, ZU, SE, ZE, SO, ZO, TA, DA, TI, DI, SMALL TU, TU, DU, TE, DE, TO, DO,
    NA, NI, NU, NE, NO, HA, BA, PA, HI, BI, PI, HU, BU, PU, HE, BE, PE, HO, BO, PO, MA, MI, MU, ME,
    MO, SMALL YA, YA, SMALL YU, YU, SMALL YO, YO, RA, RI, RU, RE, RO, SMALL WA, WA, WI, WE, WO, N,
    VU, SMALL KA, SMALL KE"⟩,
  ⟨0x30A1, ["KATAKANA LETTER "], "
    SMALL A, A, SMALL I, I, SMALL U, U, SMALL E, E, SMALL O, O, KA, GA, KI, GI, KU, GU, KE, GE, KO,
    GO, SA, ZA, SI, ZI, SU, ZU, SE, ZE, SO, ZO, TA, DA, TI, DI, SMALL TU, TU, DU, TE, DE, TO, DO,
    NA, NI, NU, NE, NO, HA, BA, PA, HI, BI, PI, HU, BU, PU, HE, BE, PE, HO, BO, PO, MA, MI, MU, ME,
    MO, SMALL YA, YA, SMALL YU, YU, SMALL YO, YO, RA, RI, RU, RE, RO, SMALL WA, WA, WI, WE, WO, N,
    VU, SMALL KA, SMALL KE, VA, VI, VE, VO"⟩,
  ⟨0x30FB, [""], "KATAKANA MIDDLE DOT, KATAKANA-HIRAGANA PROLONGED SOUND MARK"⟩,
  -- punctuation, numbers and money
  ⟨0x2010, [""], "
    HYPHEN, NON-BREAKING HYPHEN, FIGURE DASH, EN DASH, EM DASH, HORIZONTAL BAR,
    DOUBLE VERTICAL LINE, DOUBLE LOW LINE, LEFT SINGLE QUOTATION MARK, RIGHT SINGLE QUOTATION MARK,
    SINGLE LOW-9 QUOTATION MARK, SINGLE HIGH-REVERSED-9 QUOTATION MARK, LEFT DOUBLE QUOTATION MARK,
    RIGHT DOUBLE QUOTATION MARK, DOUBLE LOW-9 QUOTATION MARK, DOUBLE HIGH-REVERSED-9 QUOTATION MARK,
    DAGGER, DOUBLE DAGGER, BULLET, TRIANGULAR BULLET, ONE DOT LEADER, TWO DOT LEADER,
    HORIZONTAL ELLIPSIS, HYPHENATION POINT, LINE SEPARATOR, PARAGRAPH SEPARATOR,
    LEFT-TO-RIGHT EMBEDDING, RIGHT-TO-LEFT EMBEDDING, POP DIRECTIONAL FORMATTING,
    LEFT-TO-RIGHT OVERRIDE, RIGHT-TO-LEFT OVERRIDE, NARROW NO-BREAK SPACE, PER MILLE SIGN,
    PER TEN THOUSAND SIGN, PRIME, DOUBLE PRIME, TRIPLE PRIME, REVERSED PRIME, REVERSED DOUBLE PRIME,
    REVERSED TRIPLE PRIME, CARET, SINGLE LEFT-POINTING ANGLE QUOTATION MARK,
    SINGLE RIGHT-POINTING ANGLE QUOTATION MARK, REFERENCE MARK, DOUBLE EXCLAMATION MARK,
    INTERROBANG, OVERLINE, UNDERTIE, CHARACTER TIE, CARET INSERTION POINT, ASTERISM, HYPHEN BULLET,
    FRACTION SLASH, LEFT SQUARE BRACKET WITH QUILL, RIGHT SQUARE BRACKET WITH QUILL,
    DOUBLE QUESTION MARK, QUESTION EXCLAMATION MARK, EXCLAMATION QUESTION MARK, TIRONIAN SIGN ET,
    REVERSED PILCROW SIGN, BLACK LEFTWARDS BULLET, BLACK RIGHTWARDS BULLET, LOW ASTERISK,
    REVERSED SEMICOLON, CLOSE UP, TWO ASTERISKS ALIGNED VERTICALLY, COMMERCIAL MINUS SIGN,
    SWUNG DASH, INVERTED UNDERTIE, FLOWER PUNCTUATION MARK, THREE DOT PUNCTUATION, QUADRUPLE PRIME,
    FOUR DOT PUNCTUATION, FIVE DOT PUNCTUATION, TWO DOT PUNCTUATION, FOUR DOT MARK, DOTTED CROSS,
    TRICOLON, VERTICAL FOUR DOTS"⟩,
  ⟨0x2070, ["SUPERSCRIPT "], "ZERO, LATIN SMALL LETTER I"⟩,
  ⟨0x2074, ["SUPERSCRIPT "], "
    FOUR, FIVE, SIX, SEVEN, EIGHT, NINE, PLUS SIGN, MINUS, EQUALS SIGN, LEFT PARENTHESIS,
    RIGHT PARENTHESIS, LATIN SMALL LETTER N"⟩,
  ⟨0x2080, ["SUBSCRIPT "], "
    ZERO, ONE, TWO, THREE, FOUR, FIVE, SIX, SEVEN, EIGHT, NINE, PLUS SIGN, MINUS, EQUALS SIGN,
    LEFT PARENTHESIS, RIGHT PARENTHESIS"⟩,
  ⟨0x2090, ["LATIN SUBSCRIPT SMALL LETTER "], "A, E, O, X, SCHWA, H, K, L, M, N, P, S, T"⟩,
  ⟨0x20A0, [""], "
    EURO-CURRENCY SIGN, COLON SIGN, CRUZEIRO SIGN, FRENCH FRANC SIGN, LIRA SIGN, MILL SIGN,
    NAIRA SIGN, PESETA SIGN, RUPEE SIGN, WON SIGN, NEW SHEQEL SIGN, DONG SIGN, EURO SIGN, KIP SIGN,
    TUGRIK SIGN, DRACHMA SIGN, GERMAN PENNY SIGN, PESO SIGN, GUARANI SIGN, AUSTRAL SIGN,
    HRYVNIA SIGN, CEDI SIGN, LIVRE TOURNOIS SIGN, SPESMILO SIGN, TENGE SIGN, INDIAN RUPEE SIGN,
    TURKISH LIRA SIGN, NORDIC MARK SIGN, MANAT SIGN, RUBLE SIGN, LARI SIGN, BITCOIN SIGN,
    SOM SIGN"⟩,
  ⟨0x2150, ["VULGAR FRACTION "], "
    ONE SEVENTH, ONE NINTH, ONE TENTH, ONE THIRD, TWO THIRDS, ONE FIFTH, TWO FIFTHS, THREE FIFTHS,
    FOUR FIFTHS, ONE SIXTH, FIVE SIXTHS, ONE EIGHTH, THREE EIGHTHS, FIVE EIGHTHS, SEVEN EIGHTHS"⟩,
  ⟨0x215F, ["FRACTION NUMERATOR "], "ONE"⟩,
  ⟨0x2160, ["ROMAN NUMERAL "], "
    ONE, TWO, THREE, FOUR, FIVE, SIX, SEVEN, EIGHT, NINE, TEN, ELEVEN, TWELVE, FIFTY, ONE HUNDRED,
    FIVE HUNDRED, ONE THOUSAND"⟩,
  ⟨0x2170, ["SMALL ROMAN NUMERAL "], "
    ONE, TWO, THREE, FOUR, FIVE, SIX, SEVEN, EIGHT, NINE, TEN, ELEVEN, TWELVE, FIFTY, ONE HUNDRED,
    FIVE HUNDRED, ONE THOUSAND"⟩,
  ⟨0x2180, ["ROMAN NUMERAL "], "
    ONE THOUSAND C D, FIVE THOUSAND, TEN THOUSAND, REVERSED ONE HUNDRED"⟩,
  -- symbols
  ⟨0x2190, [""], "
    LEFTWARDS ARROW, UPWARDS ARROW, RIGHTWARDS ARROW, DOWNWARDS ARROW, LEFT RIGHT ARROW,
    UP DOWN ARROW, NORTH WEST ARROW, NORTH EAST ARROW, SOUTH EAST ARROW, SOUTH WEST ARROW,
    LEFTWARDS ARROW WITH STROKE, RIGHTWARDS ARROW WITH STROKE, LEFTWARDS WAVE ARROW,
    RIGHTWARDS WAVE ARROW, LEFTWARDS TWO HEADED ARROW, UPWARDS TWO HEADED ARROW,
    RIGHTWARDS TWO HEADED ARROW, DOWNWARDS TWO HEADED ARROW, LEFTWARDS ARROW WITH TAIL,
    RIGHTWARDS ARROW WITH TAIL, LEFTWARDS ARROW FROM BAR, UPWARDS ARROW FROM BAR,
    RIGHTWARDS ARROW FROM BAR, DOWNWARDS ARROW FROM BAR, UP DOWN ARROW WITH BASE,
    LEFTWARDS ARROW WITH HOOK, RIGHTWARDS ARROW WITH HOOK"⟩,
  ⟨0x21D0, [""], "
    LEFTWARDS DOUBLE ARROW, UPWARDS DOUBLE ARROW, RIGHTWARDS DOUBLE ARROW, DOWNWARDS DOUBLE ARROW,
    LEFT RIGHT DOUBLE ARROW, UP DOWN DOUBLE ARROW"⟩,
  ⟨0x2200, [""], "
    FOR ALL, COMPLEMENT, PARTIAL DIFFERENTIAL, THERE EXISTS, THERE DOES NOT EXIST, EMPTY SET,
    INCREMENT, NABLA, ELEMENT OF, NOT AN ELEMENT OF, SMALL ELEMENT OF, CONTAINS AS MEMBER,
    DOES NOT CONTAIN AS MEMBER, SMALL CONTAINS AS MEMBER, END OF PROOF, N-ARY PRODUCT,
    N-ARY COPRODUCT, N-ARY SUMMATION, MINUS SIGN, MINUS-OR-PLUS SIGN, DOT PLUS, DIVISION SLASH,
    SET MINUS, ASTERISK OPERATOR, RING OPERATOR, BULLET OPERATOR, SQUARE ROOT, CUBE ROOT,
    FOURTH ROOT, PROPORTIONAL TO, INFINITY, RIGHT ANGLE, ANGLE, MEASURED ANGLE, SPHERICAL ANGLE,
    DIVIDES, DOES NOT DIVIDE, PARALLEL TO, NOT PARALLEL TO, LOGICAL AND, LOGICAL OR, INTERSECTION,
    UNION, INTEGRAL, DOUBLE INTEGRAL, TRIPLE INTEGRAL, CONTOUR INTEGRAL, SURFACE INTEGRAL,
    VOLUME INTEGRAL, CLOCKWISE INTEGRAL, CLOCKWISE CONTOUR INTEGRAL, ANTICLOCKWISE CONTOUR INTEGRAL,
    THEREFORE, BECAUSE, RATIO, PROPORTION, DOT MINUS, EXCESS, GEOMETRIC PROPORTION, HOMOTHETIC,
    TILDE OPERATOR, REVERSED TILDE, INVERTED LAZY S, SINE WAVE, WREATH PRODUCT, NOT TILDE,
    MINUS TILDE, ASYMPTOTICALLY EQUAL TO, NOT ASYMPTOTICALLY EQUAL TO, APPROXIMATELY EQUAL TO,
    APPROXIMATELY BUT NOT ACTUALLY EQUAL TO, NEITHER APPROXIMATELY NOR ACTUALLY EQUAL TO,
    ALMOST EQUAL TO, NOT ALMOST EQUAL TO, ALMOST EQUAL OR EQUAL TO, TRIPLE TILDE, ALL EQUAL TO,
    EQUIVALENT TO, GEOMETRICALLY EQUIVALENT TO, DIFFERENCE BETWEEN, APPROACHES THE LIMIT,
    GEOMETRICALLY EQUAL TO, APPROXIMATELY EQUAL TO OR THE IMAGE OF,
    IMAGE OF OR APPROXIMATELY EQUAL TO, COLON EQUALS, EQUALS COLON, RING IN EQUAL TO, RING EQUAL TO,
    CORRESPONDS TO, ESTIMATES, EQUIANGULAR TO, STAR EQUALS, DELTA EQUAL TO, EQUAL TO BY DEFINITION,
    MEASURED BY, QUESTIONED EQUAL TO, NOT EQUAL TO, IDENTICAL TO, NOT IDENTICAL TO,
    STRICTLY EQUIVALENT TO, LESS-THAN OR EQUAL TO, GREATER-THAN OR EQUAL TO,
    LESS-THAN OVER EQUAL TO, GREATER-THAN OVER EQUAL TO, LESS-THAN BUT NOT EQUAL TO,
    GREATER-THAN BUT NOT EQUAL TO, MUCH LESS-THAN, MUCH GREATER-THAN, BETWEEN, NOT EQUIVALENT TO,
    NOT LESS-THAN, NOT GREATER-THAN"⟩,
  ⟨0x2282, [""], "
    SUBSET OF, SUPERSET OF, NOT A SUBSET OF, NOT A SUPERSET OF, SUBSET OF OR EQUAL TO,
    SUPERSET OF OR EQUAL TO, NEITHER A SUBSET OF NOR EQUAL TO, NEITHER A SUPERSET OF NOR EQUAL TO,
    SUBSET OF WITH NOT EQUAL TO, SUPERSET OF WITH NOT EQUAL TO"⟩,
  ⟨0x2295, ["CIRCLED "], "
    PLUS, MINUS, TIMES, DIVISION SLASH, DOT OPERATOR, RING OPERATOR, ASTERISK OPERATOR, EQUALS,
    DASH"⟩,
  ⟨0x229E, ["SQUARED "], "PLUS, MINUS, TIMES, DOT OPERATOR"⟩,
  ⟨0x22A2, [""], "RIGHT TACK, LEFT TACK, DOWN TACK, UP TACK"⟩,
  ⟨0x22C0, [""], "
    N-ARY LOGICAL AND, N-ARY LOGICAL OR, N-ARY INTERSECTION, N-ARY UNION, DIAMOND OPERATOR,
    DOT OPERATOR, STAR OPERATOR"⟩,
  ⟨0x2500, ["BOX DRAWINGS "], "
    LIGHT HORIZONTAL, HEAVY HORIZONTAL, LIGHT VERTICAL, HEAVY VERTICAL,
    LIGHT TRIPLE DASH HORIZONTAL, HEAVY TRIPLE DASH HORIZONTAL, LIGHT TRIPLE DASH VERTICAL,
    HEAVY TRIPLE DASH VERTICAL, LIGHT QUADRUPLE DASH HORIZONTAL, HEAVY QUADRUPLE DASH HORIZONTAL,
    LIGHT QUADRUPLE DASH VERTICAL, HEAVY QUADRUPLE DASH VERTICAL, LIGHT DOWN AND RIGHT,
    DOWN LIGHT AND RIGHT HEAVY, DOWN HEAVY AND RIGHT LIGHT, HEAVY DOWN AND RIGHT,
    LIGHT DOWN AND LEFT, DOWN LIGHT AND LEFT HEAVY, DOWN HEAVY AND LEFT LIGHT, HEAVY DOWN AND LEFT,
    LIGHT UP AND RIGHT, UP LIGHT AND RIGHT HEAVY, UP HEAVY AND RIGHT LIGHT, HEAVY UP AND RIGHT,
    LIGHT UP AND LEFT, UP LIGHT AND LEFT HEAVY, UP HEAVY AND LEFT LIGHT, HEAVY UP AND LEFT,
    LIGHT VERTICAL AND RIGHT, VERTICAL LIGHT AND RIGHT HEAVY, UP HEAVY AND RIGHT DOWN LIGHT,
    DOWN HEAVY AND RIGHT UP LIGHT, VERTICAL HEAVY AND RIGHT LIGHT, DOWN LIGHT AND RIGHT UP HEAVY,
    UP LIGHT AND RIGHT DOWN HEAVY, HEAVY VERTICAL AND RIGHT, LIGHT VERTICAL AND LEFT,
    VERTICAL LIGHT AND LEFT HEAVY, UP HEAVY AND LEFT DOWN LIGHT, DOWN HEAVY AND LEFT UP LIGHT,
    VERTICAL HEAVY AND LEFT LIGHT, DOWN LIGHT AND LEFT UP HEAVY, UP LIGHT AND LEFT DOWN HEAVY,
    HEAVY VERTICAL AND LEFT, LIGHT DOWN AND HORIZONTAL, LEFT HEAVY AND RIGHT DOWN LIGHT,
    RIGHT HEAVY AND LEFT DOWN LIGHT, DOWN LIGHT AND HORIZONTAL HEAVY,
    DOWN HEAVY AND HORIZONTAL LIGHT, RIGHT LIGHT AND LEFT DOWN HEAVY,
    LEFT LIGHT AND RIGHT DOWN HEAVY, HEAVY DOWN AND HORIZONTAL, LIGHT UP AND HORIZONTAL,
    LEFT HEAVY AND RIGHT UP LIGHT, RIGHT HEAVY AND LEFT UP LIGHT, UP LIGHT AND HORIZONTAL HEAVY,
    UP HEAVY AND HORIZONTAL LIGHT, RIGHT LIGHT AND LEFT UP HEAVY, LEFT LIGHT AND RIGHT UP HEAVY,
    HEAVY UP AND HORIZONTAL, LIGHT VERTICAL AND HORIZONTAL"⟩,
  ⟨0x2580, [""], "
    UPPER HALF BLOCK, LOWER ONE EIGHTH BLOCK, LOWER ONE QUARTER BLOCK, LOWER THREE EIGHTHS BLOCK,
    LOWER HALF BLOCK, LOWER FIVE EIGHTHS BLOCK, LOWER THREE QUARTERS BLOCK,
    LOWER SEVEN EIGHTHS BLOCK, FULL BLOCK, LEFT SEVEN EIGHTHS BLOCK, LEFT THREE QUARTERS BLOCK,
    LEFT FIVE EIGHTHS BLOCK, LEFT HALF BLOCK, LEFT THREE EIGHTHS BLOCK, LEFT ONE QUARTER BLOCK,
    LEFT ONE EIGHTH BLOCK, RIGHT HALF BLOCK, LIGHT SHADE, MEDIUM SHADE, DARK SHADE"⟩,
  ⟨0x25A0, [""], "
    BLACK SQUARE, WHITE SQUARE, WHITE SQUARE WITH ROUNDED CORNERS,
    WHITE SQUARE CONTAINING BLACK SMALL SQUARE"⟩,
  ⟨0x25A4, ["SQUARE WITH "], "
    HORIZONTAL FILL, VERTICAL FILL, ORTHOGONAL CROSSHATCH FILL, UPPER LEFT TO LOWER RIGHT FILL,
    UPPER RIGHT TO LOWER LEFT FILL, DIAGONAL CROSSHATCH FILL"⟩,
  ⟨0x25AA, [""], "
    BLACK SMALL SQUARE, WHITE SMALL SQUARE, BLACK RECTANGLE, WHITE RECTANGLE,
    BLACK VERTICAL RECTANGLE, WHITE VERTICAL RECTANGLE, BLACK PARALLELOGRAM, WHITE PARALLELOGRAM,
    BLACK UP-POINTING TRIANGLE, WHITE UP-POINTING TRIANGLE, BLACK UP-POINTING SMALL TRIANGLE,
    WHITE UP-POINTING SMALL TRIANGLE, BLACK RIGHT-POINTING TRIANGLE, WHITE RIGHT-POINTING TRIANGLE,
    BLACK RIGHT-POINTING SMALL TRIANGLE, WHITE RIGHT-POINTING SMALL TRIANGLE,
    BLACK RIGHT-POINTING POINTER, WHITE RIGHT-POINTING POINTER, BLACK DOWN-POINTING TRIANGLE,
    WHITE DOWN-POINTING TRIANGLE, BLACK DOWN-POINTING SMALL TRIANGLE,
    WHITE DOWN-POINTING SMALL TRIANGLE, BLACK LEFT-POINTING TRIANGLE, WHITE LEFT-POINTING TRIANGLE,
    BLACK LEFT-POINTING SMALL TRIANGLE, WHITE LEFT-POINTING SMALL TRIANGLE,
    BLACK LEFT-POINTING POINTER, WHITE LEFT-POINTING POINTER, BLACK DIAMOND, WHITE DIAMOND,
    WHITE DIAMOND CONTAINING BLACK SMALL DIAMOND, FISHEYE, LOZENGE, WHITE CIRCLE, DOTTED CIRCLE,
    CIRCLE WITH VERTICAL FILL, BULLSEYE, BLACK CIRCLE"⟩,
  ⟨0x2600, [""], "
    BLACK SUN WITH RAYS, CLOUD, UMBRELLA, SNOWMAN, COMET, BLACK STAR, WHITE STAR, LIGHTNING,
    THUNDERSTORM, SUN, ASCENDING NODE, DESCENDING NODE, CONJUNCTION, OPPOSITION, BLACK TELEPHONE,
    WHITE TELEPHONE, BALLOT BOX, BALLOT BOX WITH CHECK, BALLOT BOX WITH X, SALTIRE,
    UMBRELLA WITH RAIN DROPS, HOT BEVERAGE, WHITE SHOGI PIECE, BLACK SHOGI PIECE, SHAMROCK,
    REVERSED ROTATED FLORAL HEART BULLET, BLACK LEFT POINTING INDEX, BLACK RIGHT POINTING INDEX,
    WHITE LEFT POINTING INDEX, WHITE UP POINTING INDEX, WHITE RIGHT POINTING INDEX,
    WHITE DOWN POINTING INDEX, SKULL AND CROSSBONES, CAUTION SIGN, RADIOACTIVE SIGN, BIOHAZARD SIGN,
    CADUCEUS, ANKH, ORTHODOX CROSS, CHI RHO, CROSS OF LORRAINE, CROSS OF JERUSALEM,
    STAR AND CRESCENT, FARSI SYMBOL, ADI SHAKTI, HAMMER AND SICKLE, PEACE SYMBOL, YIN YANG"⟩,
  ⟨0x2630, ["TRIGRAM FOR "], "HEAVEN, LAKE, FIRE, THUNDER, WIND, WATER, MOUNTAIN, EARTH"⟩,
  ⟨0x2638, [""], "
    WHEEL OF DHARMA, WHITE FROWNING FACE, WHITE SMILING FACE, BLACK SMILING FACE,
    WHITE SUN WITH RAYS, FIRST QUARTER MOON, LAST QUARTER MOON, MERCURY, FEMALE SIGN, EARTH,
    MALE SIGN, JUPITER, SATURN, URANUS, NEPTUNE, PLUTO, ARIES, TAURUS, GEMINI, CANCER, LEO, VIRGO,
    LIBRA, SCORPIUS, SAGITTARIUS, CAPRICORN, AQUARIUS, PISCES"⟩,
  ⟨0x2654, ["WHITE CHESS "], "KING, QUEEN, ROOK, BISHOP, KNIGHT, PAWN"⟩,
  ⟨0x265A, ["BLACK CHESS "], "KING, QUEEN, ROOK, BISHOP, KNIGHT, PAWN"⟩,
  ⟨0x2660, [""], "
    BLACK SPADE SUIT, WHITE HEART SUIT, WHITE DIAMOND SUIT, BLACK CLUB SUIT, WHITE SPADE SUIT,
    BLACK HEART SUIT, BLACK DIAMOND SUIT, WHITE CLUB SUIT, HOT SPRINGS, QUARTER NOTE, EIGHTH NOTE,
    BEAMED EIGHTH NOTES, BEAMED SIXTEENTH NOTES, MUSIC FLAT SIGN, MUSIC NATURAL SIGN,
    MUSIC SHARP SIGN"⟩,
  ⟨0x1F600, [""], "GRINNING FACE, GRINNING FACE WITH SMILING EYES, FACE WITH TEARS OF JOY"⟩,
  ⟨0x1F603, ["SMILING FACE WITH "], "
    OPEN MOUTH, OPEN MOUTH AND SMILING EYES, OPEN MOUTH AND COLD SWEAT,
    OPEN MOUTH AND TIGHTLY-CLOSED EYES, HALO, HORNS"⟩,
  ⟨0x1F609, [""], "
    WINKING FACE, SMILING FACE WITH SMILING EYES, FACE SAVOURING DELICIOUS FOOD, RELIEVED FACE,
    SMILING FACE WITH HEART-SHAPED EYES, SMILING FACE WITH SUNGLASSES, SMIRKING FACE, NEUTRAL FACE,
    EXPRESSIONLESS FACE, UNAMUSED FACE, FACE WITH COLD SWEAT, PENSIVE FACE, CONFUSED FACE,
    CONFOUNDED FACE, KISSING FACE, FACE THROWING A KISS, KISSING FACE WITH SMILING EYES,
    KISSING FACE WITH CLOSED EYES"⟩,
  ⟨0x1F61B, ["FACE WITH STUCK-OUT "], "
    TONGUE, TONGUE AND WINKING EYE, TONGUE AND TIGHTLY-CLOSED EYES"⟩,
  ⟨0x1F61E, [""], "
    DISAPPOINTED FACE, WORRIED FACE, ANGRY FACE, POUTING FACE, CRYING FACE, PERSEVERING FACE,
    FACE WITH LOOK OF TRIUMPH, DISAPPOINTED BUT RELIEVED FACE, FROWNING FACE WITH OPEN MOUTH,
    ANGUISHED FACE, FEARFUL FACE, WEARY FACE, SLEEPY FACE, TIRED FACE, GRIMACING FACE,
    LOUDLY CRYING FACE, FACE WITH OPEN MOUTH, HUSHED FACE, FACE WITH OPEN MOUTH AND COLD SWEAT,
    FACE SCREAMING IN FEAR, ASTONISHED FACE, FLUSHED FACE, SLEEPING FACE, DIZZY FACE,
    FACE WITHOUT MOUTH, FACE WITH MEDICAL MASK, GRINNING CAT FACE WITH SMILING EYES,
    CAT FACE WITH TEARS OF JOY, SMILING CAT FACE WITH OPEN MOUTH,
    SMILING CAT FACE WITH HEART-SHAPED EYES, CAT FACE WITH WRY SMILE,
    KISSING CAT FACE WITH CLOSED EYES, POUTING CAT FACE, CRYING CAT FACE, WEARY CAT FACE,
    SLIGHTLY FROWNING FACE, SLIGHTLY SMILING FACE, UPSIDE-DOWN FACE, FACE WITH ROLLING EYES,
    FACE WITH NO GOOD GESTURE, FACE WITH OK GESTURE, PERSON BOWING DEEPLY, SEE-NO-EVIL MONKEY,
    HEAR-NO-EVIL MONKEY, SPEAK-NO-EVIL MONKEY, HAPPY PERSON RAISING ONE HAND"⟩,
  ⟨0x1F64C, ["PERSON "], "
    RAISING BOTH HANDS IN CELEBRATION, FROWNING, WITH POUTING FACE, WITH FOLDED HANDS"⟩]

end CompilerKit.Text
